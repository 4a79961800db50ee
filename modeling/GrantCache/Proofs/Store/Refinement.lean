import GrantCache.Proofs.ByteOrder
import GrantCache.Proofs.Store.Names
import GrantCache.Proofs.Store.Reference
import GrantCache.Proofs.Store.Session

/-!
# The bounded store refines the reference

The bounded store keeps dead entries until it meets them, keeps an order of use, and evicts. None of
this shows in what it answers, evictions apart: its live entries mirror the items of the reference,
but for keys that it reports as evicted (`MirrorsBut`). The few ways in which a store changes keep
it so, and every request is made of them (`agrees_serve`). So the answers of a session are those of
the reference that is told the same and loses what was evicted (`answers_eq_reference`).
-/

namespace GrantCache

open Event (evictions)

/-! ## Entries and items -/

/-- The entry stands for the item; the names of a set are listed in strict order. -/
inductive StandsFor : Entry → Item → Prop where
  | value (v : Json) (deadline : Option Nat) : StandsFor ⟨.scalar v, deadline⟩ ⟨.value v, deadline⟩
  | set {names : List String} {members : Finset String} (sorted : Members.Listed names)
      (same : names.toFinset = members) (nonempty : members.Nonempty) (deadline : Option Nat) :
      StandsFor ⟨.set names, deadline⟩ ⟨.set members nonempty, deadline⟩

/-- An entry and the item it stands for expire at the same instant. -/
theorem StandsFor.filter {e : Entry} {i : Item} (h : StandsFor e i) (now : Nat) :
    Option.Rel StandsFor ((some e).filter fun e => e.isAlive now)
      ((some i).filter fun i => i.deadline.all (now < ·)) := by
  have alike : e.isAlive now = i.deadline.all (now < ·) := by
    cases h with
    | value v deadline => cases deadline <;> rfl
    | set sorted same nonempty deadline => cases deadline <;> rfl
  rw [Option.filter_some, Option.filter_some, alike]
  split
  · exact .some h
  · exact .none

namespace Reference

variable {now : Nat} {m : Reference}

theorem live?_put (now : Nat) (key other : String) (i : Item) (m : Reference) :
    (m.put key i).live? now other =
      if key = other then (some i).filter (fun i => i.deadline.all (now < ·))
      else m.live? now other := by
  change Option.filter _ (if key = other then some i else m.item? other) = _
  split <;> rfl

theorem live?_remove (now : Nat) (p : String → Prop) [DecidablePred p] (key : String)
    (m : Reference) : (m.remove p).live? now key = if p key then none else m.live? now key := by
  change Option.filter _ (if p key then none else m.item? key) = _
  split <;> rfl

/-- What is live later was live before and has not reached its deadline. -/
theorem live?_later {later : Nat} (h : now ≤ later) (key : String) (m : Reference) :
    m.live? later key = (m.live? now key).filter fun i => i.deadline.all (later < ·) := by
  rw [live?, live?, Option.filter_filter]
  congr 1
  funext i
  cases hd : i.deadline with
  | none => simp
  | some d =>
    have earlier : later < d → now < d := fun hl => by omega
    simpa using earlier

theorem remove_nil (m : Reference) : m.remove (· ∈ ([] : List String)) = m := by
  rw [remove]
  simp

/-- The members a set answers come in strictly rising byte order. -/
theorem pairwise_bytes_of_members {key : String} {names : List String}
    (h : (m.members now key).1 = .ok names) :
    names.Pairwise fun a b => Text.bytes a < Text.bytes b := by
  rw [members] at h
  split at h
  · cases h
  · rename_i set _ _ _
    obtain rfl := Response.ok.inj h
    exact set.sortedLT_sort.pairwise.imp Text.bytes_lt_iff.2
  · obtain rfl := Response.ok.inj h
    exact .nil

/-- An answer of a session is the answer of the reference at some time. -/
theorem Session.mem_answers_play {c : Session} {moves : List Move}
    {a : (r : Request) × Response r.Answer}
    (h : a ∈ (c.play moves).answers) :
    a ∈ c.answers ∨ ∃ now items r, a = ⟨r, (serve now items r).1⟩ := by
  induction moves generalizing c with
  | nil => exact Or.inl h
  | cons m rest ih =>
    rcases ih h with h | told
    · cases m with
      | ask r =>
        rcases List.mem_append.1 h with h | h
        · exact Or.inl h
        · exact Or.inr ⟨c.now, c.items, r, List.mem_singleton.1 h⟩
      | lose keys => exact Or.inl h
      | pass ms => exact Or.inl h
    · exact Or.inr told

theorem Session.play_append (c : Session) (moves more : List Move) :
    c.play (moves ++ more) = (c.play moves).play more := List.foldl_append

end Reference

namespace Store

/-! ## What mirrors the reference -/

/-- The live entries of a store stand for the items of the reference, but for some that are gone. -/
def MirrorsBut (gone : List String) (now : Nat) (s : Store) (m : Reference) : Prop :=
  ∀ key, Option.Rel StandsFor (s.live? now key) (m.live? now key) ∨
    (s.live? now key = none ∧ key ∈ gone)

variable {now : Nat} {gone : List String} {s t : Store} {m : Reference} {key : String} {e : Entry}
  {i : Item}

theorem mirrors_empty (limit now : Nat) : MirrorsBut [] now (empty limit) .empty :=
  fun _ => Or.inl .none

/-- Only what is live counts for whether a store mirrors the reference. -/
theorem MirrorsBut.of_live (h : MirrorsBut gone now s m)
    (same : ∀ other, t.live? now other = s.live? now other) : MirrorsBut gone now t m := by
  intro other
  rw [same]
  exact h other

/-- Where nothing is gone, what is live under a key stands for what the reference has there. -/
theorem MirrorsBut.rel (h : MirrorsBut [] now s m) (key : String) :
    Option.Rel StandsFor (s.live? now key) (m.live? now key) :=
  (h key).resolve_right fun hk => List.not_mem_nil hk.2

theorem MirrorsBut.isSome (h : MirrorsBut [] now s m) (key : String) :
    (s.live? now key).isSome = (m.live? now key).isSome := by
  have there := h.rel key
  generalize s.live? now key = e? at there
  generalize m.live? now key = i? at there
  cases there with
  | some he => rfl
  | none => rfl

/-- Writing to both keeps them alike. -/
theorem MirrorsBut.hold (h : MirrorsBut gone now s m) (he : StandsFor e i) (key : String) :
    MirrorsBut gone now (s.hold key e) (m.put key i) := by
  intro other
  rw [live?_hold, Reference.live?_put]
  split
  · exact Or.inl (he.filter now)
  · exact h other

/-- Removing a key from both keeps them alike. -/
theorem MirrorsBut.drop (h : MirrorsBut gone now s m) (key : String) :
    MirrorsBut gone now (s.drop key) (m.remove (· = key)) := by
  intro other
  rw [live?_drop, Reference.live?_remove]
  by_cases hk : key = other
  · rw [if_pos hk, if_pos hk.symm]
    exact Or.inl .none
  · rw [if_neg hk, if_neg (Ne.symm hk)]
    exact h other

/-- A write may evict another key. -/
theorem MirrorsBut.write (h : MirrorsBut gone now s m) (he : StandsFor e i) (key : String) :
    MirrorsBut (gone ++ evictions (s.write key e).2) now (s.write key e).1 (m.put key i) := by
  intro other
  rw [Reference.live?_put]
  by_cases hk : key = other
  · rw [if_pos hk, ← hk, live?_write_self]
    exact Or.inl (he.filter now)
  · rw [if_neg hk]
    rcases spares_write hk now e s with spared | ⟨absent, evicted⟩
    · rw [spared]
      exact (h other).imp_right fun lost => ⟨lost.1, List.mem_append_left _ lost.2⟩
    · exact Or.inr ⟨absent, List.mem_append_right _ evicted⟩

/-- Once the reference loses what is gone, nothing differs. -/
theorem MirrorsBut.lose (h : MirrorsBut gone now s m) {lost : List String}
    (all : ∀ key, key ∈ lost ↔ key ∈ gone ∧ s.live? now key = none) :
    MirrorsBut [] now s (m.remove (· ∈ lost)) := by
  intro key
  left
  rw [Reference.live?_remove]
  split
  · rename_i hl
    rw [((all key).1 hl).2]
    exact .none
  · rename_i hl
    exact (h key).resolve_right fun ⟨absent, hg⟩ => hl ((all key).2 ⟨hg, absent⟩)

/-! ## Time -/

theorem live?_later {later : Nat} (h : now ≤ later) (key : String) (s : Store) :
    s.live? later key = (s.live? now key).filter fun e => e.isAlive later := by
  rw [live?, live?, Option.filter_filter]
  congr 1
  funext e
  -- what is alive later is alive now
  cases hd : e.deadline with
  | none => simp [Entry.isAlive, hd]
  | some d =>
    have earlier : later < d → now < d := fun hl => by omega
    simpa [Entry.isAlive, hd] using earlier

/-- As time goes by the same things expire on both sides. -/
theorem MirrorsBut.later (h : MirrorsBut [] now s m) {later : Nat} (hl : now ≤ later) :
    MirrorsBut [] later s m := by
  intro key
  left
  rw [live?_later hl, Reference.live?_later hl]
  have there := h.rel key
  generalize s.live? now key = e? at there
  generalize m.live? now key = i? at there
  cases there with
  | some he => exact he.filter later
  | none => exact .none

/-! ## Requests -/

/-- What a store serves is what the reference tells, but for keys that are reported as evicted. -/
def Agrees {α : Type} (now : Nat) (served : Served Store α) (told : Response α × Reference) :
    Prop :=
  served.response = told.1 ∧ MirrorsBut (evictions served.events) now served.state told.2

/-- The use of a key finds what the reference has: nothing, a value, or a set. -/
inductive Finds (now : Nat) (key : String) (s t : Store) (m : Reference) : Prop
  | nothing (used : s.use now key = (none, t)) (there : m.live? now key = none)
  | value (v : Json) {deadline : Option Nat}
    (used : s.use now key = (some ⟨.scalar v, deadline⟩, t))
    (there : m.live? now key = some ⟨.value v, deadline⟩)
  | set {names : List String} {deadline : Option Nat} {nonempty : names.toFinset.Nonempty}
    (listed : Members.Listed names) (used : s.use now key = (some ⟨.set names, deadline⟩, t))
    (there : m.live? now key = some ⟨.set names.toFinset nonempty, deadline⟩)

/-- Looking a key up in the store, which may drop what has expired, keeps the two alike. -/
theorem MirrorsBut.use (h : MirrorsBut [] now s m) (key : String) :
    ∃ t, MirrorsBut [] now t m ∧ Finds now key s t m := by
  have kept : MirrorsBut [] now (s.use now key).2 m :=
    h.of_live fun other => live?_use now key other s
  have used : s.use now key = (s.live? now key, (s.use now key).2) := by rw [← use_fst]
  have alike := h.rel key
  refine ⟨_, kept, ?_⟩
  cases hs : s.live? now key with
  -- If nothing is alive on one side, nothing is on the other.
  | none =>
    cases hm : m.live? now key with
    | none => exact .nothing (by rw [used, hs]) hm
    | some i =>
      rw [hs, hm] at alike
      cases alike
  | some e =>
    cases hm : m.live? now key with
    | none =>
      rw [hs, hm] at alike
      cases alike
    | some i =>
      rw [hs, hm] at alike
      cases alike with
      | some he =>
        cases he with
        | value v deadline => exact .value v (by rw [used, hs]) hm
        | @set names members sorted same nonempty deadline =>
          subst same
          exact .set sorted (by rw [used, hs]) hm

section Serve

variable (h : MirrorsBut [] now s m) (key : String)

include h

theorem agrees_get : Agrees now (s.get now key) (m.get now key) := by
  rw [get, Reference.get]
  obtain ⟨t, kept, finds⟩ := h.use key
  cases finds with
  | nothing used there | value v used there | set listed used there =>
    rw [used, there]
    exact ⟨rfl, kept⟩

theorem agrees_has : Agrees now (s.has now key) (m.has now key) := by
  rw [has, Reference.has]
  obtain ⟨t, kept, finds⟩ := h.use key
  cases finds with
  | nothing used there | value v used there | set listed used there =>
    rw [used, there]
    exact ⟨rfl, kept⟩

theorem agrees_members : Agrees now (s.members now key) (m.members now key) := by
  rw [members, Reference.members]
  obtain ⟨t, kept, finds⟩ := h.use key
  cases finds with
  | nothing used there | value v used there =>
    rw [used, there]
    exact ⟨rfl, kept⟩
  | set listed used there =>
    rw [used, there]
    exact ⟨congrArg Response.ok listed.sort_toFinset.symm, kept⟩

theorem agrees_delete : Agrees now (s.delete now key) (m.delete now key) := by
  refine ⟨?_, h.drop key⟩
  have alive :
      ((s.entries.find? key).map (·.isAlive now)).getD false = (s.live? now key).isSome := by
    rw [live?]
    cases s.entries.find? key with
    | none => rfl
    | some e => by_cases ha : e.isAlive now <;> simp [ha]
  rw [delete, Reference.delete, alive, h.isSome]
  cases (m.live? now key).isSome <;> rfl

end Serve

/-! #### The seconds left -/

/-- Adding half a second before dividing rounds to the nearest second, a half up. -/
theorem round_seconds (ms : Nat) : round ((ms : ℚ) / 1000) = ((ms + 500) / 1000 : Nat) := by
  have half : (ms : ℚ) / 1000 + 1 / 2 = ((ms + 500 : Nat) : ℚ) / (1000 : Nat) := by
    push_cast
    ring
  rw [round_eq, half, Rat.floor_natCast_div_natCast]
  rfl

/-- The time that is left in whole seconds is the exact time rounded. -/
theorem remaining_eq_round {deadline : Nat} (h : now ≤ deadline) (d : Data) :
    (⟨d, some deadline⟩ : Entry).remaining now = round (((deadline : ℚ) - now) / 1000) := by
  rw [← Nat.cast_sub h, round_seconds]
  rfl

theorem agrees_ttl (h : MirrorsBut [] now s m) (key : String) :
    Agrees now (s.ttl now key) (m.ttl now key) := by
  have alive : ∀ i, m.live? now key = some i → i.deadline.all (now < ·) = true := fun i hi =>
    (Option.filter_eq_some_iff.1 hi).2
  rw [ttl, Reference.ttl]
  obtain ⟨t, kept, finds⟩ := h.use key
  cases finds with
  | nothing used there =>
    rw [used, there]
    exact ⟨rfl, kept⟩
  | @value _ deadline used there | @set _ deadline _ _ used there =>
    -- What is alive has its deadline ahead, so that subtraction does not cut off.
    have ahead := alive _ there
    rw [used, there]
    refine ⟨?_, ?_⟩
    · cases deadline with
      | none => rfl
      | some d =>
        have later : now ≤ d := by
          have : now < d := by simpa using ahead
          omega
        exact congrArg Response.ok (remaining_eq_round later _)
    · cases deadline with
      | none => exact kept
      | some d => exact kept

/-! #### Integers -/

/-- A stored number is taken for a counter when it fits into 64 bits. -/
theorem signed?_int (n : Int) :
    (Json.int n).signed? = if Reference.IsInt64 n then some n else none := by
  have range : (Json.minInteger ≤ n ∧ n ≤ Json.maxSigned) ↔ Reference.IsInt64 n := by
    simp only [Json.minInteger, Json.maxSigned, Reference.IsInt64, Nat.pow_eq]
    omega
  rw [Json.signed?]
  exact if_congr range rfl rfl

theorem agrees_adjust (h : MirrorsBut [] now s m) (key : String) (delta : Int) :
    Agrees now (s.adjust now key delta) (m.adjust now key delta) := by
  rw [adjust, Reference.adjust]
  obtain ⟨t, kept, finds⟩ := h.use key
  cases finds with
  | nothing used there =>
    rw [used, there, Int.zero_add]
    exact ⟨rfl, kept.write (.value _ none) key⟩
  | @value v deadline used there =>
    rw [used, there]
    cases v with
    | int n =>
      simp only [signed?_int]
      -- The number that is stored and the sum both have to fit into 64 bits.
      by_cases hn : Reference.IsInt64 n
      · by_cases hd : Reference.IsInt64 (n + delta)
        · simp only [hn, hd, if_true, Option.bind_some, and_self]
          exact ⟨rfl, kept.hold (.value _ deadline) key⟩
        · simp only [hn, hd, if_true, if_false, Option.bind_some, and_false]
          exact ⟨rfl, kept⟩
      · simp only [hn, if_false, Option.bind_none, false_and]
        exact ⟨rfl, kept⟩
    | null | bool | float | str | arr | obj => exact ⟨rfl, kept⟩
  | set listed used there =>
    rw [used, there]
    exact ⟨rfl, kept⟩

/-! #### Deadlines -/

theorem deadlineIn?_eq (now seconds : Nat) :
    deadlineIn? now seconds =
      if seconds < Reference.lastSecond then some (now + 1000 * seconds) else none := rfl

/-- Store and reference set the same deadlines. -/
theorem ttlDeadline?_eq (now : Nat) (ttl : Option Nat) :
    ttlDeadline? now ttl = Reference.deadline? now ttl := by
  rw [Reference.deadline?]
  cases ttl with
  | none => rfl
  | some seconds =>
    cases seconds with
    | zero => rfl
    | succ n =>
      have positive : n + 1 ≠ 0 := Nat.succ_ne_zero n
      simp only [ttlDeadline?, deadlineIn?_eq, Option.getD_some, positive, if_false]
      split <;> rfl

theorem agrees_expire (h : MirrorsBut [] now s m) (key : String) (seconds : Nat) :
    Agrees now (s.expire now key seconds) (m.expire now key seconds) := by
  rw [expire, Reference.expire]
  obtain ⟨t, kept, finds⟩ := h.use key
  cases finds with
  | nothing used there =>
    rw [used, there]
    exact ⟨rfl, kept⟩
  | value v used there =>
    rw [used, there]
    by_cases before : seconds < Reference.lastSecond
    · simp only [deadlineIn?_eq, before, if_true]
      exact ⟨rfl, kept.hold (.value v _) key⟩
    · simp only [deadlineIn?_eq, before, if_false]
      exact ⟨rfl, kept⟩
  | @set _ _ nonempty listed used there =>
    rw [used, there]
    by_cases before : seconds < Reference.lastSecond
    · simp only [deadlineIn?_eq, before, if_true]
      exact ⟨rfl, kept.hold (.set listed rfl nonempty _) key⟩
    · simp only [deadlineIn?_eq, before, if_false]
      exact ⟨rfl, kept⟩

/-! #### Many keys -/

/-- Writing several keys at once comes to writing them one by one in the reference, up to what is
evicted. -/
theorem mirrors_writeMany (h : MirrorsBut gone now s m) (deadline : Option Nat)
    (entries : List (String × Json)) :
    MirrorsBut (gone ++ evictions (s.writeMany deadline entries).2) now
      (s.writeMany deadline entries).1
      (entries.foldl (fun m e => m.put e.1 ⟨.value e.2, deadline⟩) m) := by
  induction entries generalizing gone s m with
  | nil =>
    rw [writeMany, Event.evictions_nil, List.append_nil]
    exact h
  | cons e rest ih =>
    have first := h.write (.value e.2 deadline) e.1
    rw [writeMany, Event.evictions_append, ← List.append_assoc]
    exact ih first

/-- Writing one value is writing a list of one. -/
theorem set_eq_setMany (now : Nat) (key : String) (value : Json) (ttl : Option Nat) (s : Store) :
    s.set now key value ttl = s.setMany now [(key, value)] ttl := by
  rw [set, setMany]
  cases ttlDeadline? now ttl with
  | none => rfl
  | some deadline => simp only [writeMany, List.append_nil]

theorem agrees_setMany (h : MirrorsBut [] now s m) (entries : List (String × Json))
    (ttl : Option Nat) : Agrees now (s.setMany now entries ttl) (m.setMany now entries ttl) := by
  rw [setMany, Reference.setMany, ttlDeadline?_eq]
  cases Reference.deadline? now ttl with
  | none => exact ⟨rfl, h⟩
  | some deadline => exact ⟨rfl, mirrors_writeMany h deadline entries⟩

/-- Reading several keys at once answers the same on both sides and evicts nothing. -/
theorem agrees_getMany (h : MirrorsBut [] now s m) (keys : List String) :
    Response.ok (s.getMany now keys).1 = (m.getMany now keys).1 ∧
      MirrorsBut [] now (s.getMany now keys).2.1 m ∧
      evictions (s.getMany now keys).2.2 = [] := by
  induction keys generalizing s with
  | nil => exact ⟨rfl, h, rfl⟩
  | cons key rest ih =>
    obtain ⟨t, kept, finds⟩ := h.use key
    obtain ⟨same, mirrors, none⟩ := ih kept
    have rest_values := Response.ok.inj same
    cases finds with
    | nothing used there | value v used there | set listed used there =>
      rw [getMany, used]
      refine ⟨?_, mirrors, none⟩
      rw [Reference.getMany, List.map_cons, there]
      exact congrArg (fun vs => Response.ok (_ :: vs)) rest_values

/-! #### Patterns -/

theorem live?_eq_some_iff (hd : s.Distinct) {key : String} {e : Entry} :
    s.live? now key = some e ↔ (key, e) ∈ s.entries ∧ e.isAlive now = true := by
  rw [live?, Option.filter_eq_some_iff]
  exact and_congr_left' ⟨Catalog.mem_of_find?, Catalog.find?_of_mem hd⟩

/-- A deletion by pattern answers the same number on both sides: a key is stored once, so that live
entries are counted like live keys. -/
theorem agrees_deletePattern (hd : s.Distinct) (h : MirrorsBut [] now s m) (pattern : String) :
    Agrees now (s.deletePattern now pattern) (m.deletePattern now pattern) := by
  constructor
  · -- The live entries that match, by their keys, are the matching items.
    let gone : Catalog Entry :=
      s.entries.filter fun x => Glob.matchesText pattern x.1 && x.2.isAlive now
    have distinct : gone.keys.Nodup := List.Nodup.sublist (List.filter_sublist.map _) hd
    have matching : (gone.keys.toFinset : Set String) = m.matching now pattern := by
      ext key
      rw [Finset.mem_coe, List.mem_toFinset, Reference.matching, Set.mem_ofPred_eq, ← h.isSome,
        Option.isSome_iff_exists]
      simp only [live?_eq_some_iff hd, gone, Catalog.keys, List.mem_map, List.mem_filter,
        Bool.and_eq_true, Prod.exists]
      constructor
      · rintro ⟨k, e, ⟨mem, matched, alive⟩, rfl⟩
        exact ⟨⟨e, mem, alive⟩, matched⟩
      · rintro ⟨⟨e, mem, alive⟩, matched⟩
        exact ⟨key, e, ⟨mem, matched, alive⟩, rfl⟩
    have count : (m.matching now pattern).ncard = gone.length := by
      rw [← matching, Set.ncard_coe_finset, List.toFinset_card_of_nodup distinct, Catalog.keys,
        List.length_map]
    have answer : (s.deletePattern now pattern).response = .ok gone.length := by
      simp only [deletePattern, List.partition_eq_filter_filter, List.filter_filter, gone]
      congr 3
      funext x
      exact Bool.and_comm _ _
    rw [answer, Reference.deletePattern, count]
  · intro other
    rw [live?_deletePattern, Reference.deletePattern, Reference.live?_remove]
    split
    · exact Or.inl .none
    · exact Or.inl (h.rel other)

/-! #### Sets -/

theorem agrees_addMembers (h : MirrorsBut [] now s m) (key : String) (names : List String) :
    Agrees now (s.addMembers now key names) (m.addMembers now key names) := by
  rw [addMembers, Reference.addMembers]
  obtain ⟨t, kept, finds⟩ := h.use key
  cases finds with
  | nothing used there =>
    rw [used, there]
    have listed : Members.Listed (Members.ofList names) := Members.Listed.union .nil names
    have same : (Members.ofList names).toFinset = names.toFinset := by
      rw [Members.ofList_eq_union, Members.toFinset_union]
      simp
    cases he : names.isEmpty with
    -- Without names no set is made, on both sides.
    | true =>
      have none : ¬names.toFinset.Nonempty := by
        rw [← Members.isEmpty_iff_toFinset, he]
        exact Bool.noConfusion
      simp only [if_true, none, dif_neg, not_false_eq_true]
      exact ⟨rfl, kept⟩
    | false =>
      have some := (Members.isEmpty_iff_toFinset names).1 he
      simp only [some, dif_pos]
      refine ⟨?_, kept.write (.set listed same some none) key⟩
      exact congrArg Response.ok (by rw [listed.length, same])
  | value v used there =>
    rw [used, there]
    exact ⟨rfl, kept⟩
  | @set old deadline _ listed used there =>
    rw [used, there]
    refine ⟨congrArg Response.ok (listed.length_union names), ?_⟩
    exact kept.hold (.set (listed.union names) (Members.toFinset_union old names) _ deadline) key

theorem agrees_removeMembers (h : MirrorsBut [] now s m) (key : String) (names : List String) :
    Agrees now (s.removeMembers now key names) (m.removeMembers now key names) := by
  rw [removeMembers, Reference.removeMembers]
  obtain ⟨t, kept, finds⟩ := h.use key
  cases finds with
  | nothing used there | value v used there =>
    rw [used, there]
    exact ⟨rfl, kept⟩
  | @set old _ _ listed used there =>
    rw [used, there]
    have removed := listed.length_remove names
    have left := Members.isEmpty_iff_toFinset (Members.remove old names)
    rw [Members.toFinset_remove] at left
    cases he : (Members.remove old names).isEmpty with
    -- A set that loses its last name goes as a whole.
    | true =>
      have none : ¬(old.toFinset \ names.toFinset).Nonempty := by
        rw [← left, he]
        exact Bool.noConfusion
      have all : old.length = (old.toFinset ∩ names.toFinset).card := by
        rw [← removed, List.isEmpty_iff.1 he]
        rfl
      simp only [he, if_true, none, dif_neg, not_false_eq_true]
      exact ⟨congrArg Response.ok all, kept.drop key⟩
    | false =>
      have some := left.1 he
      simp only [he, some, dif_pos, Bool.false_eq_true, if_false]
      refine ⟨congrArg Response.ok removed, ?_⟩
      exact kept.hold (.set (listed.remove names) (Members.toFinset_remove old names) some _) key

/-! #### All requests -/

/-- Every request is answered alike, and leaves the two alike up to what it evicts. -/
theorem agrees_serve (hd : s.Distinct) (h : MirrorsBut [] now s m) (r : Request) :
    Agrees now (s.serve now r) (m.serve now r) := by
  cases r with
  | get key => exact agrees_get h key
  -- One key is set as several are.
  | set key value ttl =>
    rw [serve, set_eq_setMany]
    exact agrees_setMany h [(key, value)] ttl
  | delete key => exact agrees_delete h key
  | deletePattern pattern => exact agrees_deletePattern hd h pattern
  | has key => exact agrees_has h key
  | ttl key => exact agrees_ttl h key
  | getMany keys =>
    obtain ⟨same, mirrors, none⟩ := agrees_getMany h keys
    refine ⟨same, ?_⟩
    rw [serve, none]
    exact mirrors
  | setMany entries ttl => exact agrees_setMany h entries ttl
  | increment key => exact agrees_adjust h key 1
  | decrement key => exact agrees_adjust h key (-1)
  | expire key seconds => exact agrees_expire h key seconds
  | addMembers key names => exact agrees_addMembers h key names
  | members key => exact agrees_members h key
  | removeMembers key names => exact agrees_removeMembers h key names

/-! ## Sessions -/

/-- The move of the reference that a move of a store amounts to; a sweep is none. -/
def Move.plain? : Move → Option Reference.Move
  | ask r => some (.ask r)
  | sweep => none
  | pass ms => some (.pass ms)

/-- The keys that were evicted on a turn and are not alive after it. -/
def Turn.lost (d : Turn) : List String :=
  (evictions d.events).filter fun key => (d.after.live? d.time key).isNone

/-- What the reference is told of a turn: the same, and to lose what was evicted. -/
def Turn.retold (d : Turn) : List Reference.Move :=
  match d.move with
  | .ask r => [.ask r, .lose d.lost]
  | .sweep => []
  | .pass ms => [.pass ms]

/-- What happened to the cache, told as moves of the reference. -/
def Session.retold (c : Session) : List Reference.Move := c.turns.flatMap Turn.retold

theorem Session.retold_move (c : Session) (m : Move) :
    (c.move m).retold = c.retold ++ (c.turn m).retold := by
  rw [retold, Session.move, List.flatMap_append, List.flatMap_singleton]
  rfl

/-- The reference has answered the same and has the same items. -/
structure Follows (c : Session) (r : Reference.Session) : Prop where
  now : r.now = c.now
  answers : r.answers = c.answers
  mirrors : MirrorsBut [] c.now c.store r.items

/-- One move of the cache, told to the reference, keeps both alike and their answers equal. -/
theorem follows_move {c : Session} {r : Reference.Session} (hd : c.store.Distinct)
    (h : Follows c r) (m : Move) : Follows (c.move m) (r.play (c.turn m).retold) := by
  obtain ⟨now, items, answers⟩ := r
  obtain ⟨rfl, rfl, mirrors⟩ := h
  cases m with
  | ask request =>
    obtain ⟨same, after⟩ := agrees_serve hd mirrors request
    refine ⟨rfl, ?_, ?_⟩
    · rw [Session.answers_move]
      exact congrArg (fun a => c.answers ++ [⟨request, a⟩]) same.symm
    · refine after.lose fun key => ?_
      rw [Turn.lost, List.mem_filter, Option.isNone_iff_eq_none]
      rfl
  -- The reference is not told of a sweep, which takes away only what is not alive.
  | sweep =>
    refine ⟨rfl, ?_, mirrors.of_live fun key => live?_sweep hd c.now key⟩
    rw [Session.answers_move]
    exact (List.append_nil _).symm
  | pass ms =>
    refine ⟨rfl, ?_, mirrors.later (Nat.le_add_right _ _)⟩
    rw [Session.answers_move]
    exact (List.append_nil _).symm

/-- Along every run of a cache the reference that is told of it follows. -/
theorem follows_play (limit now : Nat) (moves : List Move) :
    Follows ((Session.start limit now).play moves)
      ((Reference.Session.start now).play ((Session.start limit now).play moves).retold) := by
  induction moves using List.reverseRecOn with
  | nil => exact ⟨rfl, rfl, mirrors_empty limit now⟩
  | append_singleton moves m ih =>
    have distinct := Session.distinct_play (c := .start limit now) (distinct_empty limit) moves
    rw [Session.play_concat, Session.retold_move, Reference.Session.play_append]
    exact follows_move distinct ih m

/-- While nothing is evicted the reference is told the requests and how much time passes, and that
is all that matters. -/
theorem play_retold_of_no_evictions (limit now : Nat) (moves : List Move)
    (h : evictions ((Session.start limit now).play moves).events = []) (r : Reference.Session) :
    r.play ((Session.start limit now).play moves).retold =
      r.play (moves.filterMap Move.plain?) := by
  induction moves using List.reverseRecOn with
  | nil => rfl
  | append_singleton moves m ih =>
    rw [Session.play_concat, Session.events_move, Event.evictions_append,
      List.append_eq_nil_iff] at h
    rw [Session.play_concat, Session.retold_move, List.filterMap_append,
      Reference.Session.play_append, Reference.Session.play_append, ih h.1]
    cases m with
    | ask request =>
      have nothing : ((((Session.start limit now).play moves).turn (.ask request)).lost) = [] := by
        rw [Turn.lost, h.2]
        rfl
      rw [Turn.retold, nothing]
      generalize r.play _ = told
      exact congrArg (fun items => (⟨told.now, items, _⟩ : Reference.Session))
        (Reference.remove_nil _)
    | sweep => rfl
    | pass ms => rfl

/-- Whatever is done to a store, and whenever, it answers as the reference does that is told the
same and loses what the store evicted; without evictions the reference is told the requests and the
time that passes, and nothing else. The names of a set are answered in the strict order of their
bytes. -/
theorem answers_eq_reference (limit now : Nat) (moves : List Move) :
    let c := (Session.start limit now).play moves
    c.answers = ((Reference.Session.start now).play c.retold).answers ∧
      (evictions c.events = [] →
        c.answers = ((Reference.Session.start now).play (moves.filterMap Move.plain?)).answers) ∧
      ∀ key names, (⟨.members key, .ok names⟩ : Answered) ∈ c.answers →
        names.Pairwise fun a b => Text.bytes a < Text.bytes b := by
  have follows := follows_play limit now moves
  refine ⟨follows.answers.symm, fun none => ?_, ?_⟩
  · rw [← play_retold_of_no_evictions limit now moves none]
    exact follows.answers.symm
  · intro key names answered
    rw [← follows.answers] at answered
    rcases Reference.Session.mem_answers_play answered with earlier | ⟨at_, items, r, told⟩
    · cases earlier
    · obtain ⟨rfl, same⟩ := Sigma.mk.inj told
      exact Reference.pairwise_bytes_of_members (eq_of_heq same).symm

/-- A value is there up to its deadline and not at it; a set has no deadline and no name twice. -/
theorem answers_eq_reference_at_deadline :
    let moves : List Move := [.ask (.set "value" .null (some 1)),
      .ask (.addMembers "set" ["y", "x", "y"]), .pass 999, .ask (.get "value"), .pass 1, .sweep,
      .ask (.get "value"), .ask (.members "set")]
    let c := (Session.start 2 0).play moves
    evictions c.events = [] ∧
      c.answers = ((Reference.Session.start 0).play (moves.filterMap Move.plain?)).answers ∧
      (⟨.members "set", .ok ["x", "y"]⟩ : Answered) ∈ c.answers ∧
      ["x", "y"].Pairwise fun a b => Text.bytes a < Text.bytes b := by
  intro moves c
  have answered : c.answers = [⟨.set "value" .null (some 1), .ok ()⟩,
      ⟨.addMembers "set" ["y", "x", "y"], .ok 2⟩, ⟨.get "value", .ok (some .null)⟩,
      ⟨.get "value", .ok none⟩, ⟨.members "set", .ok ["x", "y"]⟩] := by rfl
  have told : (⟨.members "set", .ok ["x", "y"]⟩ : Answered) ∈ c.answers := by
    rw [answered]
    simp
  obtain ⟨-, same, sorted⟩ := answers_eq_reference 2 0 moves
  exact ⟨by rfl, same (by rfl), told, sorted _ _ told⟩

end Store

end GrantCache
