import GrantCache.Proofs.Grants.Effects
import GrantCache.Proofs.Grants.Keeping

/-!
# Plans that keep to what is promised about a grant

What each plan does about a grant, whatever others do between its effects, as long as everybody keeps
to it (`Grant.Respects`): the plan keeps to it as well, and it comes to its end with

* the user's entry removed, for the clearing of the user (`assures_clear`), of a batch that the user
  is in (`assures_clearBatches`), and of the members of the code's set (`assures_clearMembers`);
* nothing left that lists the code, for the invalidation of the code (`assures_clearIndex`,
  `assures_awaitAll`).
-/

namespace GrantCache

open Grants
open Program (Assured Every)

/-- What an effect does and answers, at an instant at which it need not wait. -/
def Grants.Outcome (e : Effect) (g : Grants) (answer : Option e.Answer) (g' : Grants) : Prop :=
  waits e g = false ∧ perform e g = (answer, g')

namespace Grant

variable {x : Grant} {g g' : Grants} {α β : Type}

/-- The user has no entry any more. -/
def Cleared (x : Grant) (g : Grants) : Prop := g.live? x.entryKey = none

theorem Cleared.loose (h : x.Cleared g) : x.Loose g := loose_of_none h

theorem Keeps.cleared (h : x.Keeps g g') (hc : x.Cleared g) : x.Cleared g' := h.entry.none hc

/-- A plan keeps to it, whatever others do, and ends with `Q`. -/
abbrev Assures (x : Grant) (Q : α → Grants → Prop) (p : Plan α) (g : Grants) : Prop :=
  Assured Outcome x.Respects Q p g

/-! ## Effects -/

/-- An effect that keeps to it in every state. -/
def Allows (x : Grant) (e : Effect) : Prop :=
  ∀ g, waits e g = false → x.Respects g (perform e g).2

/-- An effect that keeps to it when the grant is loose. -/
def AllowsLoose (x : Grant) (e : Effect) : Prop :=
  ∀ g, waits e g = false → x.Loose g → x.Respects g (perform e g).2

theorem Allows.loose {e : Effect} (h : x.Allows e) : x.AllowsLoose e := fun g hw _ => h g hw

theorem perform_ask (r : Request) (g : Grants) : (perform (.ask r) g).2 = (g.ask r).2 := by
  rw [perform]
  split <;> simp_all

theorem perform_ask_ok {r : Request} {a : r.Answer} (h : (g.ask r).1 = .ok a) :
    perform (.ask r) g = (some (.ok a), (g.ask r).2) := by
  rw [perform]
  split <;> simp_all

theorem allows_ask {r : Request} (h : ∀ g, x.Respects g (g.ask r).2) : x.Allows (.ask r) := by
  intro g _
  rw [perform_ask]
  exact h g

theorem allowsLoose_ask {r : Request} (h : ∀ g, x.Loose g → x.Respects g (g.ask r).2) :
    x.AllowsLoose (.ask r) := by
  intro g _ hl
  rw [perform_ask]
  exact h g hl

theorem allows_report (x : Grant) (e : Event) : x.Allows (.report e) :=
  fun g _ => respects_note x g [e]

/-- Taking writes out of the tracking is allowed: what is due stays due, whether tracked or not. -/
theorem allows_take (x : Grant) (key : String) : x.Allows (.takePending key) :=
  fun g _ => respects_take x g key

theorem allows_pendingKeys (x : Grant) : x.Allows .pendingKeys := fun g _ => .refl x g

theorem allows_await (x : Grant) (id : Nat) : x.Allows (.await id) :=
  fun g _ => respects_await x g id

theorem allows_launch (x : Grant) (user : String) {keys : List String}
    (targets : ∀ key ∈ keys, ∃ kind code, key = GrantKind.indexKey code kind) :
    x.Allows (.launch user keys) := fun g _ => respects_launch x g user targets

/-! ## Plans of allowed effects -/

/-- What holds of a sound cache and is kept by everybody, a plan of effects that are allowed while it
holds is assured of. -/
theorem assures_of_every {P : Effect → Prop} {I : Grants → Prop} {p : Plan α} (hp : Every P p)
    (stable : ∀ {s t}, x.Keeps s t → I s → I t)
    (own : ∀ {e s}, P e → I s → waits e s = false → x.Respects s (perform e s).2)
    (hs : g.Sound) (hi : I g) : x.Assures (fun _ t => t.Sound ∧ I t) p g := by
  refine Every.assured hp (fun h ⟨hs, hi⟩ => ⟨(h hs).sound, stable (h hs) hi⟩) ?_ ⟨hs, hi⟩
  rintro e s answer t he ⟨-, hi⟩ ⟨hw, ho⟩
  have step := own he hi hw
  rwa [ho] at step

/-- A plan of allowed effects leaves the cache sound. -/
theorem assures_of_allows {p : Plan α} (hp : Every x.Allows p) (hs : g.Sound) :
    x.Assures (fun _ => Sound) p g :=
  (assures_of_every (I := fun _ => True) hp (fun _ _ => trivial) (fun he _ hw => he _ hw) hs
    trivial).mono fun _ _ h => h.1

/-- Where the grant is cleared, a plan may also do what is allowed for loose grants only. -/
theorem assures_of_cleared {p : Plan α} (hp : Every x.AllowsLoose p) (hs : g.Sound)
    (hc : x.Cleared g) : x.Assures (fun _ t => t.Sound ∧ x.Cleared t) p g :=
  assures_of_every hp Keeps.cleared (fun he hc hw => he _ hw hc.loose) hs hc

/-- Allowed effects before a plan do not spoil what it is assured of. -/
theorem assures_after_allows {p : Plan α} {q : Plan β} {Q : β → Grants → Prop} (hp : Every x.Allows p)
    (hq : x.Assures Q q g) : x.Assures Q (p >>= fun _ => q) g := by
  have allowed : x.Assures (fun _ t => x.Respects g t) p g := by
    refine Every.assured hp (fun h hi => hi.trans h) ?_ (Respects.refl x g)
    rintro e s answer t he - ⟨hw, ho⟩
    have step := he s hw
    rwa [ho] at step
  exact Assured.bind (Respects.refl x) (allowed.mono fun _ _ ht => hq.after (fun _ _ _ => .trans) ht)

/-- After a plan of allowed effects, what follows has to assure of the outcome in any sound state. -/
theorem assures_bind {p : Plan α} {f : α → Plan β} {Q : β → Grants → Prop} (hp : Every x.Allows p)
    (hs : g.Sound) (hf : ∀ a t, t.Sound → x.Assures Q (f a) t) : x.Assures Q (p >>= f) g :=
  Assured.bind (Respects.refl x) ((assures_of_allows hp hs).mono hf)

/-! ## One user -/

theorem basic_allows (x : Grant) : Plan.Basic x.Allows where
  get key := allows_ask (respects_get x · key)
  report := allows_report x
  take := allows_take x
  await := allows_await x

/-- Each removal of a user is allowed when the user's entry is gone. -/
theorem allowsLoose_of_mem_removals {user : String} {roles permissions : List String} {r : Request}
    (h : r ∈ Plan.removals user roles permissions) : x.AllowsLoose (.ask r) := by
  rcases Plan.mem_removals h with ⟨kind, rfl⟩ | ⟨kind, code, rfl⟩
  · exact (allows_ask (respects_delete_entry x · kind user)).loose
  · exact allowsLoose_ask fun g hl => respects_removeMembers x g kind code fun _ _ => hl

/-- What is assured after a request that is allowed is assured of the whole plan. -/
theorem assures_ask_bind {r : Request} {f : Except Fault r.Answer → Plan α} {Q : α → Grants → Prop}
    (own : x.Allows (.ask r))
    (next : ∀ t, x.Respects g t → ∀ answer, x.Assures Q (f answer) (t.ask r).2) :
    x.Assures Q (Plan.ask r >>= f) g := by
  rintro t ht answer u ⟨hw, ho⟩
  have state : u = (t.ask r).2 := by rw [← perform_ask, ho]
  subst state
  have step := own t hw
  rw [perform_ask] at step
  exact ⟨step, fun a _ => next t ht a⟩

/-- What a list of requests assures of, where the first of them keeps to it. -/
theorem assures_attemptAll_cons {r : Request} {rest : List Request} {Q : Grants → Prop}
    (own : x.Allows (.ask r))
    (next : ∀ t, x.Respects g t → x.Assures (fun _ => Q) (Plan.attemptAll rest) (t.ask r).2) :
    x.Assures (fun _ => Q) (Plan.attemptAll (r :: rest)) g := by
  refine assures_ask_bind own fun t ht answer => ?_
  have others := next t ht
  cases answer with
  | ok _ => exact others
  | error f => exact others.map (Respects.refl x) (fun _ _ _ => .trans) fun _ => some f

/-- The removals of the user end with the user's entry gone: it is removed first, while the user is
still in all the sets. -/
theorem assures_removals (hs : g.Sound) (roles permissions : List String) :
    x.Assures (fun _ t => t.Sound ∧ x.Cleared t)
      (Plan.attemptAll (Plan.removals x.user roles permissions)) g := by
  have guarded : ∀ r ∈ Plan.removals x.user roles permissions, x.AllowsLoose (.ask r) :=
    fun r hr => allowsLoose_of_mem_removals hr
  have own (kind : GrantKind) : x.Allows (.ask (.delete (kind.entryKey x.user))) :=
    allows_ask (respects_delete_entry x · kind x.user)
  have cleared (t : Grants) (ht : t.Sound) : x.Cleared (t.ask (.delete x.entryKey)).2 := by
    rw [Cleared, ht.live?_delete, if_pos rfl]
  obtain ⟨kind, user, code⟩ := x
  cases kind with
  | role =>
    refine assures_attemptAll_cons (own .role) fun t ht => ?_
    refine assures_of_cleared ?_ (sound_delete (ht hs).sound _) (cleared t (ht hs).sound)
    exact Plan.every_attemptAll fun r hr => guarded r (List.mem_cons_of_mem _ hr)
  | permission =>
    -- The entry of the user's roles goes first, then that of the grant.
    refine assures_attemptAll_cons (own .role) fun t ht => ?_
    refine assures_attemptAll_cons (own .permission) fun u hu => ?_
    have sound := (hu (sound_delete (ht hs).sound _)).sound
    refine assures_of_cleared ?_ (sound_delete sound _) (cleared u sound)
    exact Plan.every_attemptAll fun r hr =>
      guarded r (List.mem_cons_of_mem _ (List.mem_cons_of_mem _ hr))

/-- Clearing a user keeps to what is promised about any grant, and clears those of that user. -/
theorem assures_clear (x : Grant) (user : String) (hs : g.Sound) :
    x.Assures (fun _ t => t.Sound ∧ (user = x.user → x.Cleared t)) (Plan.clear user) g := by
  by_cases hu : user = x.user
  · subst hu
    have read (kind : GrantKind) : Every x.Allows (Plan.read kind x.user) :=
      Plan.every_read (allows_report x) ((basic_allows x).get _)
    refine assures_bind (read .role) hs fun roles t ht => ?_
    refine assures_bind (read .permission) ht fun permissions t ht => ?_
    have settled (kind : GrantKind) (codes : List String) : Every x.Allows
        (codes.forM fun code => Plan.settle (kind.indexKey code)) :=
      Every.forM fun code _ => Plan.every_settle (basic_allows x).toPatient _
    refine assures_bind (settled .role _) ht fun _ t ht => ?_
    refine assures_bind (settled .permission _) ht fun _ t ht => ?_
    exact (assures_removals ht _ _).mono fun _ _ h => ⟨h.1, fun _ => h.2⟩
  -- Whatever is removed is another user's.
  · have plain : Every x.Allows (Plan.clear user) := Plan.every_clear (basic_allows x).toPatient
      (fun kind => (basic_allows x).get _)
      (fun kind => allows_ask (respects_delete_entry x · kind user))
      (fun kind code => allows_ask fun g => respects_removeMembers x g kind code fun _ h => absurd h hu)
    exact (assures_of_allows plain hs).mono fun _ _ h => ⟨h, fun he => absurd he hu⟩

/-- Deleting a user keeps to what is promised about any grant, and clears those of that user. -/
theorem assures_delete (x : Grant) (user : String) (hs : g.Sound) :
    x.Assures (fun _ t => t.Sound ∧ (user = x.user → x.Cleared t)) (Plan.delete user) g := by
  refine Assured.bind (Respects.refl x) ((assures_clear x user hs).mono fun fault t ht => ?_)
  cases fault with
  | none => exact fun u hu => ⟨(hu ht.1).sound, fun he => (hu ht.1).cleared (ht.2 he)⟩
  | some f =>
    -- the report of a failure changes nothing
    have plain : Every x.Allows (do
        Plan.notice (.userNotCleared user f)
        return false : Plan Bool) := (Plan.every_report (allows_report x _)).bind fun _ => trivial
    exact assures_of_every plain (fun h hc hu => h.cleared (hc hu)) (fun he _ hw => he _ hw) ht.1 ht.2

/-! ## Waiting for index writes -/

/-- The grant is found, or one of the given writes is due. -/
def FoundOrDue (x : Grant) (ids : List Nat) (g : Grants) : Prop :=
  x.Found g ∨ ∃ id ∈ ids, x.Due id g

theorem Keeps.foundOrDue {ids : List Nat} (h : x.Keeps g g') (hf : x.FoundOrDue ids g) :
    x.FoundOrDue ids g' := by
  rcases hf with found | ⟨id, hi, due⟩
  · exact Or.inl (h.found found)
  · exact (h.due id due).symm.imp_right fun due => ⟨id, hi, due⟩

/-- Who has waited for all the writes that may be due has the grant found. -/
theorem assures_awaitAll {c : Prop} {ids : List Nat} (hs : g.Sound)
    (h : c → x.FoundOrDue ids g) :
    x.Assures (fun _ t => t.Sound ∧ (c → x.Found t)) (ids.forM Plan.await) g := by
  induction ids generalizing g with
  | nil =>
    intro t ht
    refine ⟨(ht hs).sound, fun hc => (ht hs).found ?_⟩
    simpa [FoundOrDue] using h hc
  | cons id rest ih =>
    rintro t ht answer u ⟨hw, ho⟩
    have step := allows_await x id t hw
    rw [ho] at step
    refine ⟨step, fun _ _ => ih (step (ht hs).sound).sound fun hc => ?_⟩
    -- What was due before the wait is found by now, or due by a write that comes later.
    refine (step (ht hs).sound).foundOrDue ?_
    rcases (ht hs).foundOrDue (h hc) with found | ⟨other, hi, due⟩
    · exact Or.inl found
    · rcases List.mem_cons.1 hi with rfl | hi
      · -- the write that was waited for is done
        have done : t.upkeep.isDone other = true := by simpa [waits] using hw
        rw [due.not_done] at done
        cases done
      · exact Or.inr ⟨other, hi, due⟩

end Grant

end GrantCache
