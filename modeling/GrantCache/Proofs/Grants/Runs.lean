import GrantCache.Proofs.Grants.Wide

/-!
# Plans run to their end

A plan that is assured of something among others has it when it is run on its own: the others that
it waits for are the queued index writes, which run when somebody waits (`Assures.run`). The same for
plans that are run at once (`assures_runTogether`), and so for wide plans (`WideAssures.run`).
-/

namespace GrantCache

open Grants
open Program (Assured Every)

namespace Grant

variable {x : Grant} {g g' : Grants} {α : Type} {I : Grants → Prop}

/-- What an effect does to a cache is one of its outcomes when others may act before it. -/
theorem outcome_of_perform (x : Grant) (e : Effect) (g : Grants) :
    ∃ t, x.Respects g t ∧ Outcome e t (perform e g).1 (perform e g).2 := by
  cases hw : waits e g with
  | false => exact ⟨g, .refl x g, hw, rfl⟩
  | true =>
    obtain ⟨free, same⟩ := wait_of_waits e g hw
    exact ⟨g.drain, respects_drain x g, free, by rw [same]⟩

/-- A plan that is run on its own does what it assures of, since nobody is one of the others it allows
for. -/
theorem Assures.run {Q : α → Grants → Prop} {p : Plan α} (h : x.Assures Q p g) :
    x.Respects g (g.run p).2 ∧ ∀ a, (g.run p).1 = some a → Q a (g.run p).2 :=
  Assured.run (Respects.refl x) (fun _ _ _ => .trans) (outcome_of_perform x) h

/-- Of a plan that goes as far as it can without waiting, what is left assures of what the whole did. -/
theorem Assures.runUntil {Q : α → Grants → Prop} {p : Plan α} (h : x.Assures Q p g) :
    x.Respects g (p.runUntil waits perform g).2 ∧
      ∀ left, (p.runUntil waits perform g).1 = some left →
        x.Assures Q left (p.runUntil waits perform g).2 :=
  Assured.runUntil (Respects.refl x) (fun _ _ _ => .trans) (fun _ _ hw => ⟨hw, rfl⟩) h

theorem Assures.after {Q : α → Grants → Prop} {p : Plan α} (h : x.Assures Q p g)
    (hr : x.Respects g g') : x.Assures Q p g' := Assured.after (fun _ _ _ => .trans) h hr

/-! ## Plans run at once -/

/-- Each plan in turn goes as far as it can. What one of them is assured of, what is left of it is
assured of. -/
theorem assures_advanceEach {plans : List (Plan α)} (h : ∀ p ∈ plans, x.Assures (fun _ => Sound) p g) :
    x.Respects g (advanceEach plans g).2 ∧ ∀ left, (advanceEach plans g).1 = some left →
      (∀ p ∈ left, x.Assures (fun _ => Sound) p (advanceEach plans g).2) ∧
        ((∃ p ∈ plans, x.Assures (fun _ => I) p g) →
          ∃ p ∈ left, x.Assures (fun _ => I) p (advanceEach plans g).2) := by
  induction plans generalizing g with
  | nil => exact ⟨.refl x g, fun left hl => by cases hl; exact ⟨nofun, fun ⟨p, hp, _⟩ => nomatch hp⟩⟩
  | cons p rest ih =>
    obtain ⟨own, last⟩ := (h p (by simp)).runUntil
    have special := fun hp : x.Assures (fun _ => I) p g => hp.runUntil.2
    rw [advanceEach]
    rcases hr : p.runUntil waits perform g with ⟨_ | q, t⟩
    · rw [hr] at own
      exact ⟨own, by simp⟩
    · rw [hr] at own last special
      -- What the first plan does, the others count as done by somebody else.
      obtain ⟨kept, others⟩ := ih fun p hp => (h p (by simp [hp])).after own
      simp only
      rcases hr' : advanceEach rest t with ⟨_ | left, u⟩
      · rw [hr'] at kept
        exact ⟨own.trans kept, by simp⟩
      · rw [hr'] at kept others
        refine ⟨own.trans kept, fun left' hl => ?_⟩
        obtain rfl := Option.some.inj hl
        obtain ⟨plain, chosen⟩ := others left rfl
        refine ⟨fun p' hp' => ?_, ?_⟩
        · rcases List.mem_cons.1 hp' with rfl | hp'
          · exact (last _ rfl).after kept
          · exact plain p' hp'
        · rintro ⟨p', hp', ha⟩
          rcases List.mem_cons.1 hp' with rfl | hp'
          · exact ⟨q, by simp, (special ha q rfl).after kept⟩
          · obtain ⟨q', hq', ha'⟩ := chosen ⟨p', hp', ha.after own⟩
            exact ⟨q', by simp [hq'], ha'⟩

/-- Each plan in turn comes to its end. What one of them is assured of holds in the end. -/
theorem assures_runEach (stable : ∀ {s t}, x.Respects s t → I s → I t) {plans : List (Plan α)}
    (h : ∀ p ∈ plans, x.Assures (fun _ => Sound) p g) :
    x.Respects g (runEach plans g).2 ∧ ((runEach plans g).1.isSome →
      (∃ p ∈ plans, x.Assures (fun _ => I) p g) → I (runEach plans g).2) := by
  induction plans generalizing g with
  | nil => exact ⟨.refl x g, fun _ ⟨p, hp, _⟩ => nomatch hp⟩
  | cons p rest ih =>
    obtain ⟨own, -⟩ := (h p (by simp)).run
    have special := fun hp : x.Assures (fun _ => I) p g => hp.run.2
    rw [runEach]
    rcases hr : g.run p with ⟨_ | a, t⟩
    · rw [hr] at own
      exact ⟨own, by simp⟩
    · rw [hr] at own special
      obtain ⟨kept, others⟩ := ih fun p hp => (h p (by simp [hp])).after own
      simp only
      rcases hr' : runEach rest t with ⟨_ | results, u⟩
      · rw [hr'] at kept
        exact ⟨own.trans kept, by simp⟩
      · rw [hr'] at kept others
        refine ⟨own.trans kept, ?_⟩
        rintro - ⟨p', hp', ha⟩
        rcases List.mem_cons.1 hp' with rfl | hp'
        · exact stable kept (special ha a rfl)
        · exact others rfl ⟨p', hp', ha.after own⟩

/-- Plans that are run at once respect what they respect alone. If one of them makes sure of what the
others keep, it holds in the end. -/
theorem assures_runTogether (stable : ∀ {s t}, x.Respects s t → I s → I t) {plans : List (Plan α)}
    (h : ∀ p ∈ plans, x.Assures (fun _ => Sound) p g) :
    x.Respects g (g.runTogether plans).2 ∧ ((g.runTogether plans).1.isSome →
      (∃ p ∈ plans, x.Assures (fun _ => I) p g) → I (g.runTogether plans).2) := by
  obtain ⟨own, last⟩ := assures_advanceEach (I := I) h
  rw [runTogether]
  rcases hr : advanceEach plans g with ⟨_ | left, t⟩
  · rw [hr] at own
    exact ⟨own, by simp⟩
  · rw [hr] at own last
    obtain ⟨plain, chosen⟩ := last left rfl
    obtain ⟨kept, ends⟩ := assures_runEach stable plain
    exact ⟨own.trans kept, fun hs hp => ends hs (chosen hp)⟩

/-! ## Wide plans -/

theorem outcome_of_performWide (x : Grant) (e : Effect.Wide) (g : Grants) :
    ∃ t, x.Respects g t ∧ x.WideOutcome e t (performWide e g).1 (performWide e g).2 := by
  cases e with
  | single e => exact outcome_of_perform x e g
  | clearAll users =>
    have plain (hs : g.Sound) : ∀ p ∈ users.map Plan.clear, x.Assures (fun _ => Sound) p g := by
      intro p hp
      obtain ⟨user, -, rfl⟩ := List.mem_map.1 hp
      exact (assures_clear x user hs).mono fun _ _ h => h.1
    have stable {s t : Grants} (h : x.Respects s t) (hi : s.Sound ∧ x.Cleared s) :
        t.Sound ∧ x.Cleared t := ⟨(h hi.1).sound, (h hi.1).cleared hi.2⟩
    refine ⟨g, .refl x g, fun hs => (assures_runTogether stable (plain hs)).1 hs, ?_⟩
    intro hs ha hu
    refine ((assures_runTogether stable (plain hs)).2 ha ⟨_, List.mem_map_of_mem hu, ?_⟩).2
    exact (assures_clear x x.user hs).mono fun _ _ h => ⟨h.1, h.2 rfl⟩

/-- A wide plan that is run on its own does what it assures of. -/
theorem WideAssures.run {Q : α → Grants → Prop} {p : WidePlan α} (h : x.WideAssures Q p g) :
    x.Respects g (g.runWide p).2 ∧ ∀ a, (g.runWide p).1 = some a → Q a (g.runWide p).2 :=
  Assured.run (Respects.refl x) (fun _ _ _ => .trans) (outcome_of_performWide x) h

end Grant

end GrantCache
