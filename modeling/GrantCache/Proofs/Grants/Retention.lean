import GrantCache.Proofs.Grants.Keeping
import GrantCache.Proofs.Grants.View

/-!
# What keys hold while others are written

Over a bounded store a key that nobody touches holds what it held, alive or dead, until it is evicted,
which is then on record (`Grants.Retains`). Index writes touch the keys of codes alone
(`retains_drain`).
-/

namespace GrantCache.Grants

open Event (evictions)

variable {g g' g'' : Grants} {s : Store} {K : String → Prop}

/-- The keys in question hold what they held, but for those that were evicted meanwhile. -/
def Retains (K : String → Prop) (g g' : Grants) : Prop :=
  ∃ lost, g'.evicted = g.evicted ++ lost ∧
    ∀ key, K key → g'.item? key = g.item? key ∨ (g'.item? key = none ∧ key ∈ lost)

theorem Retains.refl (K : String → Prop) (g : Grants) : Retains K g g :=
  ⟨[], (List.append_nil _).symm, fun _ _ => Or.inl rfl⟩

/-- What was lost in two changes is what was lost in either. -/
theorem Retains.trans (h : Retains K g g') (h' : Retains K g' g'') : Retains K g g'' := by
  obtain ⟨lost, evicted, held⟩ := h
  obtain ⟨more, evicted', held'⟩ := h'
  refine ⟨lost ++ more, by rw [evicted', evicted, List.append_assoc], fun key hk => ?_⟩
  rcases held' key hk with same | ⟨gone, mem⟩
  · rw [same]
    exact (held key hk).imp_right fun h => ⟨h.1, List.mem_append_left _ h.2⟩
  · exact Or.inr ⟨gone, List.mem_append_right _ mem⟩

theorem Retains.note (h : Retains K g g') (events : List Event) : Retains K g (g'.note events) := by
  obtain ⟨lost, evicted, held⟩ := h
  refine ⟨lost ++ evictions events, by rw [evicted_note, evicted, List.append_assoc], fun key hk => ?_⟩
  exact (held key hk).imp_right fun h => ⟨h.1, List.mem_append_left _ h.2⟩

theorem Retains.evicted_mono (h : Retains K g g') {key : String} (hk : key ∈ g.evicted) :
    key ∈ g'.evicted := by
  obtain ⟨lost, evicted, -⟩ := h
  rw [evicted]
  exact List.mem_append_left _ hk

/-- A key that is not evicted holds what it held. -/
theorem Retains.item? (h : Retains K g g') (kept : g'.evicted = g.evicted) {key : String}
    (hk : K key) : g'.item? key = g.item? key := by
  obtain ⟨lost, evicted, held⟩ := h
  rw [kept] at evicted
  have none : lost = [] := List.self_eq_append_right.1 evicted
  refine (held key hk).resolve_right fun h => ?_
  rw [none] at h
  exact List.not_mem_nil h.2

/-- A request leaves the keys that it does not touch, but for those it evicts. -/
theorem retains_ask (h : g.store? = some s) (r : Request)
    (apart : ∀ key, K key → key ∉ r.touched g.held) : Retains K g (g.ask r).2 := by
  refine ⟨_, evicted_ask h r, fun key hk => ?_⟩
  rw [item?_of_inner (inner?_of_store h), item?_of_inner (inner?_of_store (store?_ask h r))]
  refine Store.retains_serve g.host.now s r fun touched => apart key hk ?_
  rwa [held, h]

/-- A step of an index write touches the key of a code. -/
theorem retains_proceed (hs : g.Sound) (apart : ∀ key, K key → ∀ kind code,
    key ≠ GrantKind.indexKey code kind) (id : Nat) : Retains K g (g.proceed id) := by
  rcases proceed_cases id g with ⟨same, -⟩ | ⟨w, key, rest, events, hw, hl, he⟩
  · rw [same]
    exact .refl K g
  · obtain ⟨kind, code, rfl⟩ := hs.targets w (List.mem_of_find?_eq_some hw) key (by simp [hl])
    obtain ⟨s, store, -⟩ := hs.store
    rw [he]
    have asked : Retains K g (g.ask (.addMembers (kind.indexKey code) [w.user])).2 :=
      retains_ask store _ fun key hk touched => apart key hk kind code (List.mem_singleton.1 touched)
    exact asked.note events

/-- The index writes that are queued leave all keys but those of codes. -/
theorem retains_drain (hs : g.Sound) (apart : ∀ key, K key → ∀ kind code,
    key ≠ GrantKind.indexKey code kind) : Retains K g g.drain := by
  refine (drain_induction (R := fun g g' => g.Sound → g'.Sound ∧ Retains K g g')
    (fun g hs => ⟨hs, .refl K g⟩) (fun h h' hs => ?_) (fun t id ht => ?_) g hs).2
  · obtain ⟨sound, first⟩ := h hs
    obtain ⟨sound', second⟩ := h' sound
    exact ⟨sound', first.trans second⟩
  · exact ⟨(Grant.respects_proceed ⟨.role, "", ""⟩ t id ht).sound, retains_proceed ht apart id⟩

end GrantCache.Grants
