import GrantCache.Grants
import GrantCache.Proofs.Program

/-!
# What plans are made of

Which effects a plan can have, whatever it learns on the way. Each lemma says of one plan that all
its effects have a property, given that the kinds of effects it is made of have it. What every effect
with the property keeps, the run of the plan keeps (`run_induction`), and so does that of a wide plan,
even where users are cleared at once (`runWide_induction`).
-/

namespace GrantCache.Plan

open Program (Every)

variable {P : Effect → Prop} {α : Type}

/-! ## One user -/

/-- A property of the effects with which index writes are waited for. -/
structure Patient (P : Effect → Prop) : Prop where
  report : ∀ e, P (.report e)
  take : ∀ key, P (.takePending key)
  await : ∀ id, P (.await id)

/-- A property of the effects with which a user is looked up and index writes are waited for. -/
structure Basic (P : Effect → Prop) : Prop extends Patient P where
  get : ∀ key, P (.ask (.get key))

theorem every_ask {r : Request} (h : P (.ask r)) : Every P (ask r) := ⟨h, fun _ => trivial⟩

theorem every_report {e : Event} (h : P (.report e)) : Every P (report e) := ⟨h, fun _ => trivial⟩

/-- The reading of a user's codes is made of one request and reports. -/
theorem every_read (report : ∀ e, P (.report e)) {kind : GrantKind} {user : String}
    (get : P (.ask (.get (kind.entryKey user)))) : Every P (read kind user) := by
  refine (every_ask get).bind fun answer => ?_
  split
  · trivial
  · split
    · trivial
    · exact (every_report (report _)).bind fun _ => trivial
  · exact (every_report (report _)).bind fun _ => trivial

theorem every_awaitAll (h : Patient P) (ids : List Nat) : Every P (ids.forM await) :=
  Every.forM fun id _ => ⟨h.await id, fun _ => trivial⟩

/-- Whoever settles a key takes its writes out and waits for them. -/
theorem every_settle (h : Patient P) (key : String) : Every P (settle key) :=
  ⟨h.take key, fun ids => every_awaitAll h ids⟩

/-- Requests that are made whatever becomes of each are made of these requests. -/
theorem every_attemptAll {rs : List Request} (h : ∀ r ∈ rs, P (.ask r)) : Every P (attemptAll rs) := by
  induction rs with
  | nil => trivial
  | cons r rest ih =>
    have others : Every P (attemptAll rest) := ih fun r hr => h r (by simp [hr])
    refine (every_ask (h r (by simp))).bind fun answer => ?_
    split
    · exact others
    · exact others.bind fun _ => trivial

/-- The removals of a user: the entries go, and the user leaves sets of codes. -/
theorem mem_removals {user : String} {roles permissions : List String} {r : Request}
    (h : r ∈ removals user roles permissions) :
    (∃ kind, r = .delete (GrantKind.entryKey user kind)) ∨
      ∃ kind code, r = .removeMembers (GrantKind.indexKey code kind) [user] := by
  simp only [removals, List.mem_append, List.mem_cons, List.mem_map, List.not_mem_nil,
    or_false] at h
  rcases h with ((rfl | rfl) | ⟨code, -, rfl⟩) | ⟨code, -, rfl⟩
  · exact Or.inl ⟨.role, rfl⟩
  · exact Or.inl ⟨.permission, rfl⟩
  · exact Or.inr ⟨.role, code, rfl⟩
  · exact Or.inr ⟨.permission, code, rfl⟩

/-- Clearing a user is made of readings of the user's entries, of waiting, and of the removals of the
user. -/
theorem every_clear (h : Patient P) {user : String}
    (get : ∀ kind, P (.ask (.get (GrantKind.entryKey user kind))))
    (entry : ∀ kind, P (.ask (.delete (GrantKind.entryKey user kind))))
    (index : ∀ kind code, P (.ask (.removeMembers (GrantKind.indexKey code kind) [user]))) :
    Every P (clear user) := by
  refine (every_read h.report (get .role)).bind fun roles => ?_
  refine (every_read h.report (get .permission)).bind fun permissions => ?_
  refine (Every.forM fun code _ => every_settle h _).bind fun _ => ?_
  refine (Every.forM fun code _ => every_settle h _).bind fun _ => ?_
  refine every_attemptAll fun r hr => ?_
  rcases mem_removals hr with ⟨kind, rfl⟩ | ⟨kind, code, rfl⟩
  · exact entry kind
  · exact index kind code

theorem every_delete {user : String} (report : ∀ e, P (.report e)) (h : Every P (clear user)) :
    Every P (delete user) := by
  refine h.bind fun fault => ?_
  cases fault with
  | none => trivial
  | some f => exact (every_report (report _)).bind fun _ => trivial

/-- Caching is made of one write, the launch of the index write and reports. -/
theorem every_store {kind : GrantKind} {user : String} {codes : List String} {ttl : Nat}
    (report : ∀ e, P (.report e))
    (set : P (.ask (.set (kind.entryKey user) (.texts codes.eraseDups) (some ttl))))
    (launch : P (.launch user (codes.eraseDups.map fun code => kind.indexKey code))) :
    Every P (store kind user codes ttl) := by
  refine (every_ask set).bind fun answer => ?_
  split
  · exact (every_report (report _)).bind fun _ => trivial
  · split
    · trivial
    · exact ⟨launch, fun _ => trivial⟩

/-! ## Many users -/

/-- A property of the effects that everything but caching is made of. -/
structure Common (P : Effect → Prop) : Prop extends Basic P where
  deleteEntry : ∀ kind user, P (.ask (.delete (GrantKind.entryKey user kind)))
  removeMember : ∀ kind code user, P (.ask (.removeMembers (GrantKind.indexKey code kind) [user]))
  members : ∀ kind code, P (.ask (.members (GrantKind.indexKey code kind)))
  deleteIndex : ∀ kind code, P (.ask (.delete (GrantKind.indexKey code kind)))

/-- Clearing a user is made of what everything but caching is made of. -/
theorem Common.every_clear (h : Common P) (user : String) : Every P (clear user) :=
  Plan.every_clear h.toPatient (fun _ => h.get _) (h.deleteEntry · user) (h.removeMember · · user)

/-- Counting those who were cleared is made of reports. -/
theorem every_countCleared (report : ∀ e, P (.report e)) (key : String) (batch : Nat)
    (users : List (String × Option Fault)) : Every P (countCleared key batch users) := by
  induction users with
  | nil => trivial
  | cons user rest ih =>
    obtain ⟨user, fault⟩ := user
    cases fault with
    | none => exact ih.bind fun _ => trivial
    | some f => exact (every_report (report _)).bind fun _ => ih

/-- Batches together hold what the list holds. -/
theorem flatten_batches (size : Nat) (xs : List α) : (batches size xs).flatten = xs := by
  induction h : xs.length using Nat.strongRecOn generalizing xs with
  | _ n ih =>
    cases xs with
    | nil => rw [batches]; rfl
    | cons y rest =>
      rw [batches, List.flatten_cons, ih (rest.drop size).length _ _ rfl]
      · simp
      · subst h
        simp only [List.length_drop, List.length_cons]
        omega

variable {W : Effect.Wide → Prop}

/-- A plan that is run among wide ones has the effects that it has on its own. -/
theorem every_widen (single : ∀ e, P e → W (.single e)) {p : Plan α} (hp : Every P p) :
    Every W p.widen := by
  induction p with
  | done a => trivial
  | perform e next ih => exact ⟨single e hp.1, fun a => ih a (hp.2 a)⟩

/-- Clearing batch after batch is made of the clearings and of reports. -/
theorem every_clearBatches (report : ∀ e, W (.single (.report e))) {batches : List (List String)}
    (clearAll : ∀ users ∈ batches, W (.clearAll users)) (key : String) (batch : Nat) :
    Every W (clearBatches key batch batches) := by
  induction batches generalizing batch with
  | nil => trivial
  | cons users rest ih =>
    obtain ⟨own, others⟩ := List.forall_mem_cons.1 clearAll
    have first : Every W (Plan.clearAll users) := ⟨own, fun _ => trivial⟩
    refine first.bind fun faults => ?_
    refine (every_widen (fun _ h => h) (every_countCleared report key batch _)).bind fun n => ?_
    exact (ih others (batch + 1)).bind fun _ => trivial

/-- Clearing those in a set is made of clearing parts of them, the removal of the set and reports. -/
theorem every_clearMembers (report : ∀ e, W (.single (.report e))) {users : List String}
    (clearAll : ∀ part, (∀ user ∈ part, user ∈ users) → W (.clearAll part)) {kind : GrantKind}
    {code : String} (delete : W (.single (.ask (.delete (kind.indexKey code))))) (size : Nat) :
    Every W (clearMembers size kind code users) := by
  have say (e : Event) : Every W (Plan.report e).widen := ⟨report e, fun _ => trivial⟩
  have batches : ∀ part ∈ batches (size - 1) users, W (.clearAll part) := by
    intro part hp
    refine clearAll part fun user hu => ?_
    rw [← flatten_batches (size - 1) users]
    exact List.mem_flatten.2 ⟨part, hp, hu⟩
  refine (every_clearBatches report batches _ 0).bind fun cleared => ?_
  have removal : Every W (ask (.delete (kind.indexKey code))).widen := ⟨delete, fun _ => trivial⟩
  refine removal.bind fun answer => ?_
  have reports (e e' : Event) : Every W (do
      (Plan.report e).widen
      (Plan.report e').widen
      return cleared : WidePlan Nat) := (say e).bind fun _ => (say e').bind fun _ => trivial
  cases answer with
  | ok _ => exact reports _ _
  | error f => exact (say _).bind fun _ => reports _ _

/-- Clearing the set of a code is made of reading it, clearing those in it and removing it. -/
theorem every_clearIndex (report : ∀ e, W (.single (.report e)))
    (clearAll : ∀ users, W (.clearAll users)) {kind : GrantKind} {code : String}
    (members : W (.single (.ask (.members (kind.indexKey code)))))
    (delete : W (.single (.ask (.delete (kind.indexKey code))))) (size : Nat) :
    Every W (clearIndex size kind code) := by
  have say (e : Event) : Every W (Plan.report e).widen := ⟨report e, fun _ => trivial⟩
  have reading : Every W (ask (.members (kind.indexKey code))).widen :=
    ⟨members, fun _ => trivial⟩
  refine reading.bind fun answer => ?_
  split
  · exact (say _).bind fun _ => trivial
  · exact (say _).bind fun _ => trivial
  · exact every_clearMembers report (fun part _ => clearAll part) delete size

/-- An invalidation settles the set of the code and clears it. -/
theorem every_invalidate {kind : GrantKind} {code : String} (size : Nat)
    (settles : Every W (settle (kind.indexKey code)).widen)
    (clears : Every W (clearIndex size kind code)) :
    Every W (invalidate size kind code) := settles.bind fun _ => clears

theorem every_invalidateAll {kind : GrantKind} {size : Nat} {codes : List String}
    (h : ∀ code ∈ codes, Every W (invalidate size kind code)) :
    Every W (invalidateAll size kind codes) := by
  induction codes with
  | nil => trivial
  | cons code rest ih =>
    have others : Every W (invalidateAll size kind rest) := ih fun code hc => h code (by simp [hc])
    exact (h code (by simp)).bind fun _ => others.bind fun _ => trivial

/-! ## Waiting -/

/-- An effect with which index writes are found and waited for. -/
def Waiting : Effect → Prop
  | .takePending _ | .pendingKeys | .await _ => True
  | _ => False

/-- Settling a key needs nothing of the store. -/
theorem waiting_settle (key : String) : Every Waiting (settle key) :=
  ⟨trivial, fun _ => Every.forM fun _ _ => ⟨trivial, fun _ => trivial⟩⟩

theorem waiting_settleAll : Every Waiting settleAll :=
  ⟨trivial, fun _ => Every.forM fun _ _ => waiting_settle _⟩

/-! ## Everything -/

theorem every_settleAll (h : Patient P) (keys : P .pendingKeys) : Every P settleAll :=
  ⟨keys, fun _ => Every.forM fun _ _ => every_settle h _⟩

/-- Flushing is made of one removal by pattern for each family and of reports. -/
theorem every_flushFamilies (report : ∀ e, P (.report e)) {families : List String}
    (h : ∀ family ∈ families, P (.ask (.deletePattern (Key.familyPattern family)))) :
    Every P (flushFamilies families) := by
  induction families with
  | nil => trivial
  | cons family rest ih =>
    have others : Every P (flushFamilies rest) := ih fun family hf => h family (by simp [hf])
    refine (every_ask (h family (by simp))).bind fun answer => ?_
    split
    · exact others.bind fun _ => trivial
    · exact (every_report (report _)).bind fun _ => others

end GrantCache.Plan

namespace GrantCache.Grants

open Program (Every)

variable {P : Effect → Prop} {R : Grants → Grants → Prop} {α β : Type} {g t : Grants}

/-! ## Requests, and one plan after another -/

/-- Wide plans run one after another, up to the first that is halted. -/
theorem runWide_bind (p : WidePlan α) (f : α → WidePlan β) (g : Grants) :
    g.runWide (p >>= f) =
      match g.runWide p with
      | (some a, g) => g.runWide (f a)
      | (none, g) => (none, g) := by
  simp only [runWide, Program.run_bind]
  rcases Program.run performWide p g with ⟨_ | _, _⟩ <;> rfl

theorem run_bind_of {p : Plan α} {a : α} (h : g.run p = (some a, t)) (f : α → Plan β) :
    g.run (p >>= f) = t.run (f a) := by rw [run_bind, h]

theorem runWide_bind_of {p : WidePlan α} {a : α} (h : g.runWide p = (some a, t))
    (f : α → WidePlan β) : g.runWide (p >>= f) = t.runWide (f a) := by
  rw [runWide_bind, h]

/-- A request that is answered hands its answer to the plan. -/
theorem run_ask {r : Request} {a : r.Answer} (h : (g.ask r).1 = .ok a) :
    g.run (Plan.ask r) = (some (.ok a), (g.ask r).2) := by
  rw [run, Plan.ask, Program.run, perform]
  rcases hr : g.ask r with ⟨response, t⟩
  rw [hr] at h
  obtain rfl : response = .ok a := h
  rfl

/-- A request that fails hands its fault to the plan. -/
theorem run_ask_fault {r : Request} {f : Fault} (h : (g.ask r).1 = .fault f) :
    g.run (Plan.ask r) = (some (.error f), (g.ask r).2) := by
  rw [run, Plan.ask, Program.run, perform]
  rcases hr : g.ask r with ⟨response, t⟩
  rw [hr] at h
  obtain rfl : response = .fault f := h
  rfl

/-! ## What every effect keeps -/

/-- A wide effect that is made of effects with a property. -/
def MadeOf (P : Effect → Prop) : Effect.Wide → Prop
  | .single e => P e
  | .clearAll users => ∀ user ∈ users, Every P (Plan.clear user)

/-- What every effect keeps, the run of a plan keeps. -/
theorem run_induction {p : Plan α} (hp : Every P p) (refl : ∀ g, R g g)
    (trans : ∀ {a b c}, R a b → R b c → R a c) (step : ∀ e g, P e → R g (perform e g).2)
    (g : Grants) : R g (g.run p).2 :=
  hp.run (I := R g) (fun e s he h => trans h (step e s he)) (refl g)

/-- What every effect keeps, a plan keeps that is run as far as it goes without waiting. -/
theorem runUntil_induction {p : Plan α} (hp : Every P p) (refl : ∀ g, R g g)
    (trans : ∀ {a b c}, R a b → R b c → R a c) (step : ∀ e g, P e → R g (perform e g).2)
    (g : Grants) : R g (p.runUntil waits perform g).2 :=
  hp.runUntil (I := R g) (fun e s he _ h => trans h (step e s he)) (refl g)

/-- Plans that are run in turn as far as they go keep what each of their effects keeps, and what is
left of them is made of the same effects. -/
theorem advanceEach_induction {plans : List (Plan α)} (hp : ∀ p ∈ plans, Every P p)
    (refl : ∀ g, R g g) (trans : ∀ {a b c}, R a b → R b c → R a c)
    (step : ∀ e g, P e → R g (perform e g).2) (g : Grants) :
    R g (advanceEach plans g).2 ∧
      ∀ left, (advanceEach plans g).1 = some left → ∀ p ∈ left, Every P p := by
  induction plans generalizing g with
  | nil =>
    refine ⟨refl g, fun left hl => ?_⟩
    obtain rfl := Option.some.inj hl
    exact List.forall_mem_nil _
  | cons p rest ih =>
    obtain ⟨own, others⟩ := List.forall_mem_cons.1 hp
    have first := runUntil_induction own refl trans step g
    rw [advanceEach]
    rcases hr : p.runUntil waits perform g with ⟨_ | left, t⟩
    · rw [hr] at first
      exact ⟨first, by simp⟩
    · rw [hr] at first
      obtain ⟨kept, every⟩ := ih others t
      simp only
      rcases hr' : advanceEach rest t with ⟨_ | left', u⟩
      · rw [hr'] at kept
        exact ⟨trans first kept, by simp⟩
      · rw [hr'] at kept every
        refine ⟨trans first kept, fun all hl => ?_⟩
        obtain rfl := Option.some.inj hl
        exact List.forall_mem_cons.2 ⟨own.left hr, every left' rfl⟩

/-- Plans that are run one after another keep what each of their effects keeps. -/
theorem runEach_induction {plans : List (Plan α)} (hp : ∀ p ∈ plans, Every P p)
    (refl : ∀ g, R g g) (trans : ∀ {a b c}, R a b → R b c → R a c)
    (step : ∀ e g, P e → R g (perform e g).2) (g : Grants) : R g (runEach plans g).2 := by
  induction plans generalizing g with
  | nil => exact refl g
  | cons p rest ih =>
    obtain ⟨own, others⟩ := List.forall_mem_cons.1 hp
    have first := run_induction own refl trans step g
    rw [runEach]
    rcases hr : g.run p with ⟨_ | a, t⟩
    · rwa [hr] at first
    · rw [hr] at first
      have kept := ih others t
      simp only
      rcases hr' : runEach rest t with ⟨_ | results, u⟩
      · rw [hr'] at kept
        exact trans first kept
      · rw [hr'] at kept
        exact trans first kept

/-- What every effect keeps, a wide plan keeps, even where users are cleared at once. -/
theorem runWide_induction {p : WidePlan α} (hp : Every (MadeOf P) p) (refl : ∀ g, R g g)
    (trans : ∀ {a b c}, R a b → R b c → R a c) (step : ∀ e g, P e → R g (perform e g).2)
    (g : Grants) : R g (g.runWide p).2 := by
  have wide (e : Effect.Wide) (s : Grants) (he : MadeOf P e) : R s (performWide e s).2 := by
    cases e with
    | single e => exact step e s he
    | clearAll users =>
      have clears : ∀ p ∈ users.map Plan.clear, Every P p := by
        intro p hp
        obtain ⟨user, hu, rfl⟩ := List.mem_map.1 hp
        exact he user hu
      obtain ⟨first, every⟩ := advanceEach_induction clears refl trans step s
      rw [performWide, runTogether]
      rcases hr : advanceEach (users.map Plan.clear) s with ⟨_ | left, t⟩
      · rwa [hr] at first
      · rw [hr] at first every
        exact trans first (runEach_induction (every left rfl) refl trans step t)
  exact hp.run (I := R g) (fun e s he h => trans h (wide e s he)) (refl g)

end GrantCache.Grants
