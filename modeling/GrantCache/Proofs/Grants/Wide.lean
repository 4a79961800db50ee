import GrantCache.Proofs.Grants.Plans

/-!
# Plans that clear many users

The clearing of several users at once is one effect of a wide plan. All that is relied on is that it
keeps to what is promised about a grant, and that the user of the grant has no entry afterwards if
the user was among them (`WideOutcome`). With that, clearing the members of a code's set clears the
user if the user was found there, and the set is removed when nothing lists the code any more.
-/

namespace GrantCache

open Grants
open Program (Assured Every)

namespace Grant

variable {x : Grant} {g g' : Grants} {α β : Type} {kind : GrantKind} {code : String}

/-- What a wide effect does and answers, as far as a grant is concerned. -/
def WideOutcome (x : Grant) : (e : Effect.Wide) → Grants → Option e.Answer → Grants → Prop
  | .single e, g, answer, g' => Outcome e g answer g'
  | .clearAll users, g, answer, g' =>
    x.Respects g g' ∧ (g.Sound → answer.isSome → x.user ∈ users → x.Cleared g')

/-- A wide plan keeps to it, whatever others do, and ends with `Q`. -/
abbrev WideAssures (x : Grant) (Q : α → Grants → Prop) (p : WidePlan α) (g : Grants) : Prop :=
  Assured x.WideOutcome x.Respects Q p g

theorem Assures.widen {Q : α → Grants → Prop} {p : Plan α} (h : x.Assures Q p g) :
    x.WideAssures Q (Plan.widen p) g := by
  induction p generalizing g with
  | done a => exact h
  | perform e next ih =>
    intro t ht answer u hu
    obtain ⟨own, rest⟩ := h t ht answer u hu
    exact ⟨own, fun a ha => ih a (rest a ha)⟩

theorem wideAssures_bind {p : WidePlan α} {f : α → WidePlan β} {P : α → Grants → Prop}
    {Q : β → Grants → Prop} (h : x.WideAssures P p g)
    (hf : ∀ a t, P a t → x.WideAssures Q (f a) t) : x.WideAssures Q (p >>= f) g :=
  Assured.bind (Respects.refl x) (h.mono hf)

/-- A single effect that keeps to it in every state. -/
def AllowsSingle (x : Grant) : Effect.Wide → Prop
  | .single e => x.Allows e
  | .clearAll _ => False

/-- A plan of allowed effects keeps what everybody keeps. -/
theorem wideAssures_of_every {I : Grants → Prop} {p : WidePlan α} (hp : Every x.AllowsSingle p)
    (stable : ∀ {s t}, x.Keeps s t → I s → I t) (hs : g.Sound) (hi : I g) :
    x.WideAssures (fun _ t => t.Sound ∧ I t) p g := by
  refine Every.assured hp (fun h ⟨hs, hi⟩ => ⟨(h hs).sound, stable (h hs) hi⟩) ?_ ⟨hs, hi⟩
  rintro (e | users) s answer t he - ho
  · have step := he s ho.1
    rwa [ho.2] at step
  · exact he.elim

theorem every_say (x : Grant) (e : Event) : Every x.AllowsSingle (Plan.report e).widen :=
  ⟨allows_report x e, fun _ => trivial⟩

/-! ## Batches -/

/-- Clearing users at once clears the user of the grant, if that is one of them or was cleared
before. -/
theorem assures_clearAll (users : List String) {c : Prop} (hs : g.Sound) (hc : c → x.Cleared g) :
    x.WideAssures (fun _ t => t.Sound ∧ (c ∨ x.user ∈ users → x.Cleared t)) (Plan.clearAll users)
      g := by
  rintro t ht answer u ⟨own, clears⟩
  refine ⟨own, fun faults ha v hv => ?_⟩
  have step := own (ht hs).sound
  refine ⟨(hv step.sound).sound, ?_⟩
  rintro (h | h)
  · exact (hv step.sound).cleared (step.cleared ((ht hs).cleared (hc h)))
  · exact (hv step.sound).cleared (clears (ht hs).sound (by rw [ha]; rfl) h)

theorem assures_clearBatches (key : String) (batch : Nat) (batches : List (List String)) {c : Prop}
    (hs : g.Sound) (hc : c → x.Cleared g) :
    x.WideAssures (fun _ t => t.Sound ∧ (c ∨ x.user ∈ batches.flatten → x.Cleared t))
      (Plan.clearBatches key batch batches) g := by
  induction batches generalizing g batch c with
  | nil =>
    intro t ht
    refine ⟨(ht hs).sound, fun h => (ht hs).cleared (hc ?_)⟩
    simpa using h
  | cons users rest ih =>
    refine wideAssures_bind (assures_clearAll users hs hc) fun faults t ht => ?_
    have stable {s t : Grants} (h : x.Keeps s t) (hi : c ∨ x.user ∈ users → x.Cleared s) :
        c ∨ x.user ∈ users → x.Cleared t := fun hc => h.cleared (hi hc)
    have counting : Every x.AllowsSingle
        (Plan.countCleared key batch (users.zip faults)).widen :=
      Plan.every_widen (fun _ h => h) (Plan.every_countCleared (allows_report x) key batch _)
    refine wideAssures_bind (wideAssures_of_every counting stable ht.1 ht.2) fun n u hu => ?_
    -- The user may be in this batch or in one of those that follow.
    refine wideAssures_bind (ih (batch + 1) hu.1 hu.2) fun m v hv => ?_
    intro w hw
    refine ⟨(hw hv.1).sound, fun h => (hw hv.1).cleared (hv.2 ?_)⟩
    rw [List.flatten_cons, List.mem_append] at h
    exact or_assoc.2 h

/-! ## Invalidation -/

/-- No grant of a code needs to be found there any more, if the code is that of the grant. -/
def LooseAt (x : Grant) (kind : GrantKind) (code : String) (g : Grants) : Prop :=
  kind.indexKey code = x.indexKey → x.Loose g

theorem assures_deleteIndex {I : Grants → Prop} (stable : ∀ {s t}, x.Keeps s t → I s → I t)
    (loose : ∀ s, I s → x.LooseAt kind code s) (hs : g.Sound) (hi : I g) :
    x.WideAssures (fun _ t => t.Sound ∧ I t) (Plan.widen (Plan.ask (.delete (kind.indexKey code))))
      g := by
  refine (assures_of_every (Plan.every_ask rfl : Every (· = .ask (.delete (kind.indexKey code))) _)
    stable ?_ hs hi).widen
  rintro e s rfl hi -
  rw [perform_ask]
  exact respects_delete_index x s (loose s hi)

/-- Who was found in the set is cleared, and the set is not removed before. -/
theorem assures_clearMembers (size : Nat) (kind : GrantKind) (code : String) {users : List String}
    (hs : g.Sound) (found : kind.indexKey code = x.indexKey → x.user ∈ users ∨ x.Loose g) :
    x.WideAssures
      (fun _ t => t.Sound ∧ x.LooseAt kind code t ∧ (x.user ∈ users → x.Cleared t))
      (Plan.clearMembers size kind code users) g := by
  have stable {s t : Grants} (h : x.Keeps s t)
      (hi : x.LooseAt kind code s ∧ (x.user ∈ users → x.Cleared s)) :
      x.LooseAt kind code t ∧ (x.user ∈ users → x.Cleared t) :=
    ⟨fun hx => h.loose (hi.1 hx), fun hu => h.cleared (hi.2 hu)⟩
  have clears := assures_clearBatches (kind.indexKey code) 0 (Plan.batches (size - 1) users) hs
    (False.elim : False → x.Cleared g)
  rw [Plan.flatten_batches] at clears
  -- who was not in the set was loose before, and still is
  have keeping := clears.keeping (I := fun t => t.Sound ∧ (x.Loose g → x.Loose t))
    (fun h hi => ⟨(h hi.1).sound, fun hl => (h hi.1).loose (hi.2 hl)⟩) ⟨hs, id⟩
  refine wideAssures_bind keeping fun cleared t ht => ?_
  have held : x.LooseAt kind code t ∧ (x.user ∈ users → x.Cleared t) := by
    refine ⟨fun hx => ?_, fun hu => ht.1.2 (Or.inr hu)⟩
    rcases found hx with hu | hl
    · exact (ht.1.2 (Or.inr hu)).loose
    · exact ht.2.2 hl
  refine wideAssures_bind (assures_deleteIndex stable (fun _ h => h.1) ht.2.1 held) fun a t ht => ?_
  refine wideAssures_of_every ?_ stable ht.1 ht.2
  have reports (e e' : Event) : Every x.AllowsSingle (do
      (Plan.report e).widen
      (Plan.report e').widen
      return cleared : WidePlan Nat) :=
    (every_say x e).bind fun _ => (every_say x e').bind fun _ => trivial
  cases a with
  | ok _ => exact reports _ _
  | error f => exact (every_say x _).bind fun _ => reports _ _

/-- Whoever reads the set of a code finds the user of the grant there, if that is needed. -/
theorem assures_members (kind : GrantKind) (code : String) (hs : g.Sound)
    (found : kind.indexKey code = x.indexKey → x.Found g) :
    x.WideAssures (fun answer t => t.Sound ∧ ∃ users, answer = .ok users ∧
        (kind.indexKey code = x.indexKey → x.user ∈ users ∨ x.Loose t))
      (Plan.widen (Plan.ask (.members (kind.indexKey code)))) g := by
  rintro t ht answer u ⟨-, ho⟩
  have sound := (ht hs).sound
  have keeps := respects_members x t (kind.indexKey code) sound
  rw [perform_ask_ok (sound.members_eq kind code)] at ho
  obtain ⟨rfl, rfl⟩ := Prod.mk.inj ho
  refine ⟨fun _ => keeps, fun a ha v hv => ⟨(hv keeps.sound).sound, _, (Option.some.inj ha).symm, ?_⟩⟩
  intro hx
  rcases (ht hs).found (found hx) with loose | indexed
  · exact Or.inr ((hv keeps.sound).loose (keeps.loose loose))
  · obtain ⟨rfl, rfl⟩ := GrantKind.indexKey_inj.1 hx
    exact Or.inl indexed.mem_users

/-- What is found in the set of a code is cleared. -/
theorem assures_clearIndex (size : Nat) (kind : GrantKind) (code : String) (hs : g.Sound)
    (found : kind.indexKey code = x.indexKey → x.Found g) :
    x.WideAssures (fun _ t => t.Sound ∧ x.LooseAt kind code t) (Plan.clearIndex size kind code)
      g := by
  refine wideAssures_bind (assures_members kind code hs found) ?_
  rintro _ t ⟨ht, users, rfl, seen⟩
  cases users with
  | nil =>
    -- Nobody is in the set, so the grant needs no finding.
    have loose : x.LooseAt kind code t := fun hx => (seen hx).resolve_left List.not_mem_nil
    have report : Every x.AllowsSingle (do
        (Plan.notice (.nothingToInvalidate (kind.indexKey code))).widen
        return 0 : WidePlan Nat) := (every_say x _).bind fun _ => trivial
    exact wideAssures_of_every report (fun h hl hx => h.loose (hl hx)) ht loose
  | cons user rest =>
    exact (assures_clearMembers size kind code ht seen).mono fun _ _ h => ⟨h.1, h.2.1⟩

/-- What is left of an invalidation when the tracked index writes have been taken out. -/
theorem assures_invalidate (size : Nat) (kind : GrantKind) (code : String) {ids : List Nat}
    (hs : g.Sound) (due : kind.indexKey code = x.indexKey → x.FoundOrDue ids g) :
    x.WideAssures (fun _ t => t.Sound ∧ x.LooseAt kind code t)
      ((Plan.widen (ids.forM Plan.await)) >>= fun _ => Plan.clearIndex size kind code) g :=
  wideAssures_bind (assures_awaitAll hs due).widen fun _ _ ht =>
    assures_clearIndex size kind code ht.1 ht.2

end Grant

end GrantCache
