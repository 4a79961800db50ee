import GrantCache.Proofs.Grants.Tidy
import GrantCache.Proofs.Grants.View

/-!
# Clearing a user when no index write is queued

Where no index write is queued nobody has to wait, and all that the clearing of a user does to the
store is to serve look-ups and removals (`Grants.run_clear`). Which ones these are is settled by the
view in which the clearing begins (`View.clearing`), and so is whether all goes well
(`View.clears`).
-/

namespace GrantCache

open Program (Every)

/-! ## What a clearing asks for -/

namespace View

variable {v : View} {user : String}

/-- The keys that the clearing of a user is about. -/
def ownKeys (user : String) (v : View) : List String :=
  [GrantKind.role.entryKey user, GrantKind.permission.entryKey user] ++
    (v.found .role user).map (fun code => GrantKind.role.indexKey code) ++
    (v.found .permission user).map fun code => GrantKind.permission.indexKey code

/-- The keys that clearing a user can touch: the entries, and the sets of the codes that are found in
them. -/
theorem mem_ownKeys {key : String} :
    key ∈ v.ownKeys user ↔ (∃ kind, key = GrantKind.entryKey user kind) ∨
      ∃ kind, ∃ code ∈ v.found kind user, key = GrantKind.indexKey code kind := by
  have kinds (p : GrantKind → Prop) : (∃ kind, p kind) ↔ p .role ∨ p .permission :=
    ⟨fun ⟨kind, h⟩ => by cases kind <;> simp [h], fun h => h.elim (⟨_, ·⟩) (⟨_, ·⟩)⟩
  simp only [ownKeys, List.mem_append, List.mem_map, List.mem_pair, kinds, or_assoc, eq_comm]

/-- Whether none of the keys fails that the clearing of a user is about. -/
def clears (user : String) (v : View) : Bool := (v.ownKeys user).all fun key => !v.fails key

/-- The requests with which a user is cleared. -/
def clearing (user : String) (v : View) : List Request :=
  [.get (GrantKind.role.entryKey user), .get (GrantKind.permission.entryKey user)] ++
    Plan.removals user (v.found .role user) (v.found .permission user)

theorem found_congr {v' : View} {kind : GrantKind} (now : v'.now = v.now) (fails : v'.fails = v.fails)
    (entry : v'.item? (kind.entryKey user) = v.item? (kind.entryKey user)) :
    v'.found kind user = v.found kind user := by
  rw [found, found, listed, listed, live?, live?, now, fails, entry]

theorem keys_removals (user : String) (roles permissions : List String) :
    (Plan.removals user roles permissions).flatMap Request.keys =
      [GrantKind.role.entryKey user, GrantKind.permission.entryKey user] ++
        roles.map (fun code => GrantKind.role.indexKey code) ++
        permissions.map fun code => GrantKind.permission.indexKey code := by
  simp [Plan.removals, Request.keys, List.flatMap_map, ← List.map_eq_flatMap]

end View

namespace Grants

variable {g t u : Grants} {α β : Type} {rs more : List Request} {kind : GrantKind}
  {user code : String}

/-! ## Idle caches -/

/-- A cache over a store of this process in which no index write is queued. -/
structure Idle (g : Grants) : Prop where
  inner : g.inner?.isSome
  done : g.AllDone
  typed : g.view.Typed

/-- Requests were served, and nothing else was done to the store. -/
structure Serves (rs : List Request) (g t : Grants) : Prop where
  idle : t.Idle
  view : t.view = g.view.serveAll rs

theorem Serves.trans (h : Serves rs g t) (h' : Serves more t u) : Serves (rs ++ more) g u :=
  ⟨h'.idle, by rw [h'.view, h.view, View.serveAll_append]⟩

theorem Serves.refl (h : g.Idle) : Serves [] g g := ⟨h, rfl⟩

/-- A request that only takes away leaves an idle cache idle, and it is all that was served. -/
theorem serves_ask (h : g.Idle) {r : Request} (reduces : r.Reduces) :
    Serves [r] g (g.ask r).2 := by
  have view := view_ask h.inner reduces
  exact ⟨⟨isSome_inner?_ask h.inner r, h.done, view ▸ h.typed.serve reduces⟩, view⟩

/-! ### Waiting -/

open Plan (Waiting)

/-- Nothing that is waited for does anything to the store. -/
theorem waiting_perform {e : Effect} (he : Waiting e) (h : g.Idle) :
    (perform e g).1.isSome ∧ Serves [] g (perform e g).2 := by
  cases e with
  | takePending key => exact ⟨rfl, ⟨h.inner, h.done, h.typed⟩, rfl⟩
  | pendingKeys => exact ⟨rfl, .refl h⟩
  | await id =>
    refine ⟨rfl, ?_⟩
    show Serves [] g (g.await id)
    rw [await_of_allDone h.done]
    exact ⟨⟨h.inner, h.done.see id, h.typed⟩, rfl⟩
  | _ => exact he.elim

/-- A cache without writes under way has nothing to wait for. -/
theorem run_waiting {p : Plan α} (hp : Every Waiting p) (h : g.Idle) :
    ∃ a t, g.run p = (some a, t) ∧ Serves [] g t := by
  have keep (e : Effect) (s : Grants) (he : Waiting e) (hs : Serves [] g s) :
      Serves [] g (perform e s).2 := hs.trans (waiting_perform he hs.idle).2
  have answered := hp.run_isSome keep (fun e s he hs => (waiting_perform he hs.idle).1) (.refl h)
  obtain ⟨a, ha⟩ := Option.isSome_iff_exists.1 answered
  exact ⟨a, _, Prod.ext ha rfl, hp.run keep (.refl h)⟩

/-- Settling codes of an idle cache serves no request. -/
theorem run_settleEach (h : g.Idle) (kind : GrantKind) (codes : List String) :
    ∃ t, g.run (codes.forM fun code => Plan.settle (kind.indexKey code)) = (some (), t) ∧
      Serves [] g t := by
  obtain ⟨⟨⟩, t, run, serves⟩ := run_waiting (Every.forM fun code _ => Plan.waiting_settle _) h
  exact ⟨t, run, serves⟩

theorem run_notice (h : g.Idle) (n : Notice) :
    ∃ t, g.run (Plan.notice n) = (some (), t) ∧ Serves [] g t :=
  ⟨_, rfl, ⟨h.inner, h.done, h.typed⟩, rfl⟩

/-! ### One user -/

/-- A reading finds the codes that are listed, unless it is made to fail. -/
theorem run_read (h : g.Idle) (kind : GrantKind) (user : String) :
    ∃ codes t, g.run (Plan.read kind user) = (some codes, t) ∧
      codes.getD [] = g.view.found kind user ∧ Serves [.get (kind.entryKey user)] g t := by
  have asked := serves_ask h (r := .get (kind.entryKey user)) trivial
  have noticed (n : Notice) :
      ∃ t, (g.ask (.get (kind.entryKey user))).2.run
          (do Plan.notice n; return none : Plan (Option (List String))) = (some none, t) ∧
        Serves [.get (kind.entryKey user)] g t := by
    obtain ⟨t, said, serves⟩ := run_notice asked.idle n
    exact ⟨t, by rw [run_bind_of said]; rfl, asked.trans serves⟩
  rw [View.found, View.listed, Plan.read]
  cases works : g.fails (kind.entryKey user) with
  | true =>
    have response := response_of_fails h.inner (r := .get (kind.entryKey user))
      (List.mem_singleton_self _) works
    obtain ⟨t, said, serves⟩ := noticed (.entryNotRead (kind.entryKey user) FaultyStore.injected)
    refine ⟨none, t, (run_bind_of (run_ask_fault response) _).trans said, ?_, serves⟩
    rw [show g.view.fails (kind.entryKey user) = true from works]
    rfl
  | false =>
    have response := response_get h.inner works
    rw [show g.view.fails (kind.entryKey user) = false from works]
    cases he : g.view.live? (kind.entryKey user) with
    | none =>
      rw [he] at response
      exact ⟨none, _, run_bind_of (run_ask response) _, rfl, asked⟩
    | some e =>
      rw [he] at response
      obtain ⟨⟨value⟩ | ⟨names⟩, deadline⟩ := e
      · cases hv : value.texts? with
        | some codes =>
          refine ⟨some codes, _, ?_, by simp [hv], asked⟩
          rw [run_bind_of (run_ask response)]
          simp only [hv]
          rfl
        | none =>
          obtain ⟨t, said, serves⟩ := noticed (.entryNotRead (kind.entryKey user) .serialization)
          refine ⟨none, t, ?_, by simp [hv], serves⟩
          rw [run_bind_of (run_ask response)]
          simp only [hv]
          exact said
      -- A set that is found in the place of codes is a fault.
      · obtain ⟨t, said, serves⟩ := noticed (.entryNotRead (kind.entryKey user)
          (.wrongType (kind.entryKey user)))
        exact ⟨none, t, (run_bind_of (run_ask_fault response) _).trans said, rfl, serves⟩

/-- A request of those with which users are removed. -/
def Removal (r : Request) : Prop :=
  (∃ key, r = .delete key) ∨ ∃ kind code names, r = .removeMembers (GrantKind.indexKey code kind) names

theorem Removal.reduces {r : Request} (hr : Removal r) : r.Reduces := by
  obtain ⟨key, rfl⟩ | ⟨kind, code, names, rfl⟩ := hr <;> trivial

/-- A removal goes well, unless its key is made to fail. -/
theorem run_removal (h : g.Idle) {r : Request} (hr : Removal r) :
    (∃ a, g.run (Plan.ask r) = (some (.ok a), (g.ask r).2) ∧
        (r.keys.all fun key => !g.view.fails key) = true) ∨
      ∃ f, g.run (Plan.ask r) = (some (.error f), (g.ask r).2) ∧
        (r.keys.all fun key => !g.view.fails key) = false := by
  -- each is about one key
  have single {key : String} (hk : r.keys = [key])
      (response : g.fails key = false → ∃ a, (g.ask r).1 = .ok a) :
      (∃ a, g.run (Plan.ask r) = (some (.ok a), (g.ask r).2) ∧
          (r.keys.all fun key => !g.view.fails key) = true) ∨
        ∃ f, g.run (Plan.ask r) = (some (.error f), (g.ask r).2) ∧
          (r.keys.all fun key => !g.view.fails key) = false := by
    rw [hk, List.all_cons, List.all_nil, Bool.and_true]
    cases works : g.fails key with
    | true =>
      have failed := response_of_fails h.inner (hk ▸ List.mem_singleton_self key) works
      exact Or.inr ⟨_, run_ask_fault failed, congrArg (!·) works⟩
    | false =>
      obtain ⟨a, ha⟩ := response works
      exact Or.inl ⟨a, run_ask ha, congrArg (!·) works⟩
  obtain ⟨key, rfl⟩ | ⟨kind, code, names, rfl⟩ := hr
  · exact single rfl (response_delete h.inner)
  · exact single rfl fun works => response_removeMembers h.inner h.typed works names

/-- All removals are tried, whatever becomes of each. -/
theorem run_attemptAll (h : g.Idle) (hrs : ∀ r ∈ rs, Removal r) :
    ∃ fault t, g.run (Plan.attemptAll rs) = (some fault, t) ∧ Serves rs g t ∧
      fault.isNone = (rs.flatMap Request.keys).all fun key => !g.view.fails key := by
  induction rs generalizing g with
  | nil => exact ⟨none, g, rfl, .refl h, rfl⟩
  | cons r rest ih =>
    obtain ⟨own, others⟩ := List.forall_mem_cons.1 hrs
    have asked := serves_ask h own.reduces
    obtain ⟨fault, t, ran, serves, ok⟩ := ih asked.idle others
    rw [asked.view, View.fails_serveAll] at ok
    rw [Plan.attemptAll, List.flatMap_cons, List.all_append, ← ok]
    rcases run_removal h own with ⟨a, said, works⟩ | ⟨f, said, failed⟩
    · refine ⟨fault, t, (run_bind_of said _).trans ran, asked.trans serves, ?_⟩
      rw [works, Bool.true_and]
    · refine ⟨some f, t, ?_, asked.trans serves, by rw [failed]; rfl⟩
      exact (run_bind_of said _).trans (run_bind_of ran _)

theorem removal_of_mem {roles permissions : List String} {r : Request}
    (h : r ∈ Plan.removals user roles permissions) : Removal r := by
  rcases Plan.mem_removals h with ⟨kind, rfl⟩ | ⟨kind, code, rfl⟩
  · exact Or.inl ⟨_, rfl⟩
  · exact Or.inr ⟨kind, code, _, rfl⟩

/-- A user is cleared with the requests that the view asks for, and without fault if none of the
user's own keys fails. -/
theorem run_clear (h : g.Idle) (user : String) :
    ∃ fault t, g.run (Plan.clear user) = (some fault, t) ∧ Serves (g.view.clearing user) g t ∧
      fault.isNone = g.view.clears user := by
  obtain ⟨roles, g₁, read, found, first⟩ := run_read h .role user
  obtain ⟨permissions, g₂, read', found', second⟩ := run_read first.idle .permission user
  -- the entry of the other kind is still there
  have same : g₁.view.found .permission user = g.view.found .permission user := by
    rw [first.view]
    refine View.found_congr rfl rfl (View.item?_serve_of_not_mem ?_)
    simp [Request.keys, GrantKind.entryKey_inj]
  rw [same] at found'
  obtain ⟨g₃, settled, third⟩ := run_settleEach second.idle .role (roles.getD [])
  obtain ⟨g₄, settled', fourth⟩ := run_settleEach third.idle .permission (permissions.getD [])
  have removals : ∀ r ∈ Plan.removals user (roles.getD []) (permissions.getD []), Removal r :=
    fun r hr => removal_of_mem hr
  obtain ⟨fault, g₅, removed, fifth, ok⟩ := run_attemptAll fourth.idle removals
  have serves := first.trans (second.trans (third.trans (fourth.trans fifth)))
  refine ⟨fault, g₅, ?_, ?_, ?_⟩
  · rw [Plan.clear, run_bind_of read, run_bind_of read', run_bind_of settled, run_bind_of settled']
    exact removed
  · rw [found, found'] at serves
    exact serves
  · have fails : g₄.view.fails = g.view.fails := by
      rw [fourth.view, third.view, second.view, first.view]
      simp only [View.fails_serveAll]
    rw [ok, View.keys_removals, fails, found, found']
    rfl

end Grants

end GrantCache
