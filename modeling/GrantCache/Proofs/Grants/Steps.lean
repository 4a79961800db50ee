import GrantCache.Proofs.Grants.Effects

/-!
# Calls step by step

What a call did on its way to its end: each effect that it performed, with the cache before it
(`Plan.Takes`). Others may act before each of its effects, and what they can do is a parameter.
Where users are cleared at once, the steps of the single clearings come in any order
(`Plan.TakeTogether`), and each clearing has taken its own (`TakeTogether.takes`).

A run of an operation on its own is the case in which nobody else acts (`takes_of_run`,
`wideTakes_of_runWide`).
-/

namespace GrantCache.Plan

open Grants
open Program (Every)

/-- An effect that was performed, and the cache before it. -/
structure Step where
  effect : Effect
  before : Grants

/-- A plan comes to its end by these steps, where others may act before each of them. -/
inductive Takes {α : Type} (others : Grants → Grants → Prop) :
    Plan α → Grants → List Step → α → Grants → Prop
  | done (a : α) (g : Grants) : Takes others (.done a) g [] a g
  | perform {e : Effect} {next : e.Answer → Plan α} {g t u v : Grants} {answer : e.Answer}
    {steps : List Step} {a : α} (acted : others g t) (answered : perform e t = (some answer, u))
    (rest : Takes others (next answer) u steps a v) :
    Takes others (.perform e next) g (⟨e, t⟩ :: steps) a v

/-- Plans come to their ends by these steps, each step taken by the plan at a place. -/
inductive TakeTogether {α : Type} (others : Grants → Grants → Prop) :
    List (Plan α) → Grants → List (Nat × Step) → List α → Grants → Prop
  | done (results : List α) (g : Grants) :
    TakeTogether others (results.map fun a => .done a) g [] results g
  | perform {plans : List (Plan α)} {place : Nat} {e : Effect} {next : e.Answer → Plan α}
    {g t u v : Grants} {answer : e.Answer} {steps : List (Nat × Step)} {results : List α}
    (here : plans[place]? = some (.perform e next)) (acted : others g t)
    (answered : perform e t = (some answer, u))
    (rest : TakeTogether others (plans.set place (next answer)) u steps results v) :
    TakeTogether others plans g ((place, ⟨e, t⟩) :: steps) results v

/-- The steps taken at a place. -/
def own (place : Nat) (steps : List (Nat × Step)) : List Step :=
  (steps.filter (·.1 = place)).map (·.2)

/-- A step of a wide plan. -/
inductive WideStep where
  | single (s : Step)
  | batch (users : List String) (steps : List (Nat × Step)) (faults : List (Option Fault))

/-- A wide plan comes to its end by these steps. -/
inductive WideTakes {α : Type} (others : Grants → Grants → Prop) :
    WidePlan α → Grants → List WideStep → α → Grants → Prop
  | done (a : α) (g : Grants) : WideTakes others (.done a) g [] a g
  | single {e : Effect} {next : e.Answer → WidePlan α} {g t u v : Grants} {answer : e.Answer}
    {steps : List WideStep} {a : α} (acted : others g t)
    (answered : perform e t = (some answer, u))
    (rest : WideTakes others (next answer) u steps a v) :
    WideTakes others (.perform (.single e) next) g (.single ⟨e, t⟩ :: steps) a v
  | batch {users : List String} {next : List (Option Fault) → WidePlan α} {g u v : Grants}
    {clears : List (Nat × Step)} {faults : List (Option Fault)} {steps : List WideStep} {a : α}
    (together : TakeTogether others (users.map clear) g clears faults u)
    (rest : WideTakes others (next faults) u steps a v) :
    WideTakes others (.perform (.clearAll users) next) g (.batch users clears faults :: steps) a v

/-- The clearing of one user among others: its steps, and what went wrong first. -/
structure Clearance where
  user : String
  steps : List Step
  fault : Option Fault

namespace WideStep

def clearings : WideStep → List Clearance
  | single _ => []
  | batch users steps faults =>
    (users.zip faults).zipIdx.map fun ((user, fault), place) => ⟨user, own place steps, fault⟩

end WideStep

/-- All clearings of single users. -/
def clearings (steps : List WideStep) : List Clearance := steps.flatMap (·.clearings)

/-- How many users were cleared, a user as often as it was. -/
def cleared (steps : List WideStep) : Nat := (clearings steps).countP (·.fault.isNone)

variable {α β : Type} {others : Grants → Grants → Prop} {g g' v : Grants} {a : α} {b : β}
  {steps : List Step}

/-! ## Plans one after another -/

theorem Takes.bind_inv {p : Plan α} {f : α → Plan β} (h : Takes others (p >>= f) g steps b v) :
    ∃ a t before after, Takes others p g before a t ∧ Takes others (f a) t after b v ∧
      steps = before ++ after := by
  induction p generalizing g steps with
  | done a => exact ⟨a, g, [], steps, .done a g, h, rfl⟩
  | perform e next ih =>
    cases h with
    | perform acted answered rest =>
      obtain ⟨a, t, before, after, first, second, rfl⟩ := ih _ rest
      exact ⟨a, t, _, after, .perform acted answered first, second, rfl⟩

theorem WideTakes.bind_inv {p : WidePlan α} {f : α → WidePlan β} {steps : List WideStep}
    (h : WideTakes others (p >>= f) g steps b v) :
    ∃ a t before after, WideTakes others p g before a t ∧ WideTakes others (f a) t after b v ∧
      steps = before ++ after := by
  induction p generalizing g steps with
  | done a => exact ⟨a, g, [], steps, .done a g, h, rfl⟩
  | perform e next ih =>
    cases h with
    | single acted answered rest =>
      obtain ⟨a, t, before, after, first, second, rfl⟩ := ih _ rest
      exact ⟨a, t, _, after, .single acted answered first, second, rfl⟩
    | batch together rest =>
      obtain ⟨a, t, before, after, first, second, rfl⟩ := ih _ rest
      exact ⟨a, t, _, after, .batch together first, second, rfl⟩

/-- A plan performs only effects that it consists of. -/
theorem Takes.every {P : Effect → Prop} {p : Plan α} (h : Takes others p g steps a v)
    (hp : Every P p) : ∀ s ∈ steps, P s.effect := by
  induction h with
  | done a g =>
    exact fun s hs => absurd hs List.not_mem_nil
  | perform acted answered rest ih =>
    intro s hs
    rcases List.mem_cons.1 hs with rfl | hs
    · exact hp.1
    · exact ih (hp.2 _) s hs

/-- Steps of a plan, where it does not matter what others did in between. -/
theorem Takes.free {p : Plan α} (h : Takes others p g steps a v) (g' : Grants) :
    ∃ v', Takes (fun _ _ => True) p g' steps a v' := by
  induction h generalizing g' with
  | done a g => exact ⟨g', .done a g'⟩
  | perform acted answered rest ih =>
    obtain ⟨v', others⟩ := ih _
    exact ⟨v', .perform trivial answered others⟩

/-! ## Plans at once -/

theorem own_cons_self (place : Nat) (s : Step) (steps : List (Nat × Step)) :
    own place ((place, s) :: steps) = s :: own place steps := by
  simp [own]

theorem own_cons_of_ne {place other : Nat} (h : other ≠ place) (s : Step)
    (steps : List (Nat × Step)) : own place ((other, s) :: steps) = own place steps := by
  simp [own, h]

/-- Of plans that were run at once, each has come to its own end by its own steps. -/
theorem TakeTogether.takes {plans : List (Plan α)} {results : List α} {all : List (Nat × Step)}
    (h : TakeTogether others plans g all results v) {place : Nat} {p : Plan α}
    (hp : plans[place]? = some p) :
    ∃ a t, results[place]? = some a ∧ Takes (fun _ _ => True) p g (own place all) a t := by
  induction h generalizing p with
  | done results g =>
    rw [List.getElem?_map, Option.map_eq_some_iff] at hp
    obtain ⟨a, ha, rfl⟩ := hp
    exact ⟨a, g, ha, .done a g⟩
  | @perform plans other e next g t u v answer steps results here acted answered rest ih =>
    by_cases same : other = place
    · subst same
      obtain rfl := Option.some.inj (here.symm.trans hp)
      have inside : other < plans.length := (List.getElem?_eq_some_iff.1 here).1
      obtain ⟨a, t', ha, own⟩ := ih (List.getElem?_set_self inside)
      rw [own_cons_self]
      exact ⟨a, t', ha, .perform trivial answered own⟩
    · -- For this plan it is as if somebody else had acted.
      obtain ⟨a, t', ha, own⟩ := ih ((List.getElem?_set_ne same).trans hp)
      obtain ⟨t'', own⟩ := own.free g
      rw [own_cons_of_ne same]
      exact ⟨a, t'', ha, own⟩

/-- Every clearing of a wide plan has come to its own end by its own steps. -/
theorem WideTakes.takes {p : WidePlan α} {steps : List WideStep}
    (h : WideTakes others p g steps a v) {c : Clearance} (hc : c ∈ clearings steps) :
    ∃ t u, Takes (fun _ _ => True) (clear c.user) t c.steps c.fault u := by
  induction h with
  | done a g => cases hc
  | single acted answered rest ih => exact ih hc
  | @batch users next g u v clears faults steps a together rest ih =>
    rcases List.mem_append.1 hc with here | later
    · obtain ⟨⟨⟨user, fault⟩, place⟩, mem, rfl⟩ := List.mem_map.1 here
      have both := List.mem_zipIdx_iff_getElem?.1 mem
      obtain ⟨hu, hf⟩ := List.getElem?_zip_eq_some.1 both
      have plan : (users.map clear)[place]? = some (clear user) := by
        rw [List.getElem?_map, hu]
        rfl
      obtain ⟨fault', t, hf', own⟩ := together.takes plan
      obtain rfl := Option.some.inj (hf.symm.trans hf')
      exact ⟨g, t, own⟩
    · exact ih later

/-! ## Runs on their own -/

theorem takes_of_run {p : Plan α} (h : g.run p = (some a, v)) :
    ∃ steps, Takes Eq p g steps a v := by
  induction p generalizing g with
  | done b =>
    obtain ⟨hb, rfl⟩ := Prod.mk.inj h
    obtain rfl := Option.some.inj hb
    exact ⟨[], .done _ _⟩
  | perform e next ih =>
    rw [run, Program.run] at h
    split at h
    · rename_i answer t answered
      obtain ⟨steps, rest⟩ := ih answer h
      exact ⟨_, .perform rfl answered rest⟩
    · cases (Prod.mk.inj h).1

section Together

variable {plans rest left : List (Plan α)} {results : List α} {all : List (Nat × Step)} {t : Grants}

theorem set_of_getElem? {xs : List β} {place : Nat} (h : xs[place]? = some b) :
    xs.set place b = xs := by
  obtain ⟨inside, rfl⟩ := List.getElem?_eq_some_iff.1 h
  exact List.set_getElem_self inside

theorem set_length_append (before : List β) (x y : β) (after : List β) :
    (before ++ x :: after).set before.length y = before ++ y :: after := by
  rw [List.set_append_right _ _ (Nat.le_refl _), Nat.sub_self, List.set_cons_zero]

theorem getElem?_length_append (before : List β) (x : β) (after : List β) :
    (before ++ x :: after)[before.length]? = some x := by
  rw [List.getElem?_append_right (Nat.le_refl _), Nat.sub_self, List.getElem?_cons_zero]

/-- One of several plans may go on by itself, up to an operation that has to wait. -/
theorem takeTogether_of_runUntil {waits : Effect → Grants → Bool} {place : Nat} {p p' : Plan α}
    (hp : plans[place]? = some p) (h : p.runUntil waits perform g = (some p', t))
    (further : TakeTogether Eq (plans.set place p') t all results v) :
    ∃ all, TakeTogether Eq plans g all results v := by
  induction p generalizing g plans with
  | done b =>
    obtain ⟨stays, rfl⟩ := Prod.mk.inj h
    obtain rfl := Option.some.inj stays
    rw [set_of_getElem? hp] at further
    exact ⟨all, further⟩
  | perform e next ih =>
    rw [Program.runUntil] at h
    split at h
    · obtain ⟨stays, rfl⟩ := Prod.mk.inj h
      obtain rfl := Option.some.inj stays
      rw [set_of_getElem? hp] at further
      exact ⟨all, further⟩
    · split at h
      · rename_i answer u answered
        have inside : place < plans.length := (List.getElem?_eq_some_iff.1 hp).1
        have here : (plans.set place (next answer))[place]? = some (next answer) :=
          List.getElem?_set_self inside
        -- The rest of the plan stands where the plan stood, and takes its steps from there.
        rw [← List.set_set (next answer)] at further
        obtain ⟨all, later⟩ := ih answer here h further
        exact ⟨_, .perform hp rfl answered later⟩
      · cases (Prod.mk.inj h).1

theorem takeTogether_of_advanceEach (before : List (Plan α))
    (h : advanceEach rest g = (some left, t))
    (further : TakeTogether Eq (before ++ left) t all results v) :
    ∃ all, TakeTogether Eq (before ++ rest) g all results v := by
  induction rest generalizing before g left with
  | nil =>
    obtain ⟨none, rfl⟩ := Prod.mk.inj h
    obtain rfl := Option.some.inj none
    exact ⟨all, further⟩
  | cons p rest ih =>
    rw [advanceEach] at h
    split at h
    · cases (Prod.mk.inj h).1
    · rename_i p' u first
      split at h
      · cases (Prod.mk.inj h).1
      · rename_i others w second
        obtain ⟨both, rfl⟩ := Prod.mk.inj h
        obtain rfl := Option.some.inj both
        rw [List.append_cons] at further
        obtain ⟨all, later⟩ := ih (before ++ [p']) second further
        -- The steps of the plans behind come after those of this one, which has its place before
        -- them.
        rw [← List.append_cons, ← set_length_append before p p'] at later
        exact takeTogether_of_runUntil (getElem?_length_append before p rest) first later

theorem takeTogether_of_runEach (before : List α) (h : runEach rest g = (some results, t)) :
    ∃ all, TakeTogether Eq (before.map (fun a => .done a) ++ rest) g all (before ++ results) t := by
  induction rest generalizing before g results with
  | nil =>
    obtain ⟨none, rfl⟩ := Prod.mk.inj h
    obtain rfl := Option.some.inj none
    rw [List.append_nil, List.append_nil]
    exact ⟨[], .done before g⟩
  | cons p rest ih =>
    rw [runEach] at h
    split at h
    · cases (Prod.mk.inj h).1
    · rename_i a u first
      split at h
      · cases (Prod.mk.inj h).1
      · rename_i others w second
        obtain ⟨both, rfl⟩ := Prod.mk.inj h
        obtain rfl := Option.some.inj both
        obtain ⟨all, later⟩ := ih (before ++ [a]) second
        -- A run to the end is one that never has to wait.
        have never : p.runUntil (fun _ _ => false) perform g = (some (.done a), u) := by
          rw [Program.runUntil_of_never, show p.run perform g = (some a, u) from first]
          rfl
        let done (a : α) : Plan α := .done a
        have later' : TakeTogether Eq
            ((before.map done ++ p :: rest).set (before.map done).length (.done a)) u all
              (before ++ a :: others) w := by
          rw [set_length_append, List.append_cons, List.append_cons before]
          rwa [List.map_append] at later
        exact takeTogether_of_runUntil (getElem?_length_append _ p rest) never later'

theorem takeTogether_of_runTogether (h : runTogether plans g = (some results, t)) :
    ∃ all, TakeTogether Eq plans g all results t := by
  rw [runTogether] at h
  split at h
  · cases (Prod.mk.inj h).1
  · rename_i left u first
    obtain ⟨all, later⟩ := takeTogether_of_runEach [] h
    exact takeTogether_of_advanceEach [] first later

theorem wideTakes_of_runWide {p : WidePlan α} (h : g.runWide p = (some a, v)) :
    ∃ steps, WideTakes Eq p g steps a v := by
  induction p generalizing g with
  | done b =>
    obtain ⟨hb, rfl⟩ := Prod.mk.inj h
    obtain rfl := Option.some.inj hb
    exact ⟨[], .done _ _⟩
  | perform e next ih =>
    rw [runWide, Program.run] at h
    split at h
    · rename_i answer t answered
      obtain ⟨steps, rest⟩ := ih answer h
      cases e with
      | single e => exact ⟨_, .single rfl answered rest⟩
      | clearAll users =>
        obtain ⟨all, together⟩ := takeTogether_of_runTogether answered
        exact ⟨_, .batch together rest⟩
    · cases (Prod.mk.inj h).1

end Together

end GrantCache.Plan
