import GrantCache.Proofs.Grants.Idle

/-!
# Clearing many users when no index write is queued

Where nobody has to wait, users who are cleared at once are cleared one after another
(`Grants.runTogether_of_allDone`). What one of them takes away does not matter to the others, whose
codes are looked up in their own entries (`View.Agrees`). So an invalidation serves the requests that
clear the users as the view has them in which it begins, however they are divided into batches, and
counts the users none of whose keys fails (`Grants.runWide_invalidate_of_idle`).

What is left under each key can be read off these requests: nothing under the key of the code and
under those of the users, of the other sets those who did not list the code, and everything else as
it was.
-/

namespace GrantCache

open Program (Every)
open Effect (Clearing)
open Store (lessMembers)

namespace View

variable {v : View} {user : String}

/-- The requests with which everybody in the set of a code is cleared. -/
def invalidating (kind : GrantKind) (code : String) (v : View) : List Request :=
  (v.users kind code).flatMap (clearing · v) ++ [.delete (kind.indexKey code)]

/-- The codes found for some users, and what is made to fail, are the same in two views. -/
structure Agrees (users : List String) (v w : View) : Prop where
  fails : v.fails = w.fails
  found : ∀ user ∈ users, ∀ kind, v.found kind user = w.found kind user

theorem Agrees.mono {users others : List String} {w : View} (h : v.Agrees users w)
    (sub : ∀ user ∈ others, user ∈ users) : v.Agrees others w :=
  ⟨h.fails, fun user hu => h.found user (sub user hu)⟩

/-- For a user on whom views agree, the same is asked for. -/
theorem Agrees.clearing {users : List String} {w : View} (h : v.Agrees users w) (hu : user ∈ users) :
    v.clearing user = w.clearing user := by
  rw [View.clearing, h.found user hu, h.found user hu, View.clearing]

theorem Agrees.clears {users : List String} {w : View} (h : v.Agrees users w) (hu : user ∈ users) :
    v.clears user = w.clears user := by
  rw [View.clears, ownKeys, h.found user hu, h.found user hu, h.fails, View.clears, ownKeys]

/-- Requests about other keys leave what is found for a user. -/
theorem Agrees.serveAll {users : List String} {w : View} {rs : List Request} (h : v.Agrees users w)
    (other : ∀ user ∈ users, ∀ kind, ∀ r ∈ rs, GrantKind.entryKey user kind ∉ r.keys) :
    (v.serveAll rs).Agrees users w := by
  refine ⟨(fails_serveAll rs v).trans h.fails, fun user hu kind => ?_⟩
  rw [← h.found user hu kind]
  exact found_congr (now_serveAll rs v) (fails_serveAll rs v)
    (item?_serveAll_of_not_mem (other user hu kind))

/-- Nobody else's entry is asked for when a user is cleared. -/
theorem entryKey_not_mem_clearing {other : String} {r : Request} (apart : other ≠ user)
    (hr : r ∈ v.clearing user) (kind : GrantKind) : kind.entryKey other ∉ r.keys := by
  intro mem
  have own : ∀ k : GrantKind, kind.entryKey other ≠ k.entryKey user := fun k same =>
    apart (GrantKind.entryKey_inj.1 same).2
  rcases List.mem_append.1 hr with hr | hr
  · rcases List.mem_pair.1 hr with rfl | rfl <;> exact own _ (List.mem_singleton.1 mem)
  · rcases Plan.mem_removals hr with ⟨k, rfl⟩ | ⟨k, code, rfl⟩
    · exact own k (List.mem_singleton.1 mem)
    · exact GrantKind.entryKey_ne_indexKey _ _ _ _ (List.mem_singleton.1 mem)

end View

namespace Grants

variable {g t u : Grants} {α : Type} {kind : GrantKind} {code : String}

/-! ## Users who are cleared at once -/

theorem allDone_perform {e : Effect} (he : Clearing e) (h : g.AllDone) : (perform e g).2.AllDone :=
  (idles_perform he g).allDone h

theorem waits_of_allDone (h : g.AllDone) (e : Effect) : waits e g = false := by
  cases e with
  | await id => exact congrArg (!·) (h id)
  | _ => rfl

/-- Where nobody has to wait, a plan goes to its end at once. -/
theorem runUntil_of_allDone {p : Plan α} (hp : Every Clearing p) (h : g.AllDone) :
    p.runUntil waits perform g = ((g.run p).1.map .done, (g.run p).2) := by
  induction p generalizing g with
  | done a => rfl
  | perform e next ih =>
    have done := allDone_perform hp.1 h
    rw [Program.runUntil, if_neg (by simp [waits_of_allDone h]), run, Program.run]
    rcases hr : perform e g with ⟨_ | answer, t⟩
    · rfl
    · rw [hr] at done
      exact ih answer (hp.2 answer) done

theorem advanceEach_of_allDone {plans : List (Plan α)} (hp : ∀ p ∈ plans, Every Clearing p)
    (h : g.AllDone) :
    advanceEach plans g = ((runEach plans g).1.map (·.map .done), (runEach plans g).2) := by
  induction plans generalizing g with
  | nil => rfl
  | cons p rest ih =>
    obtain ⟨own, others⟩ := List.forall_mem_cons.1 hp
    have done : (g.run p).2.AllDone := (idles_run own g).allDone h
    rw [advanceEach, runUntil_of_allDone own h, runEach]
    rcases hr : g.run p with ⟨_ | a, t⟩
    · rfl
    · rw [hr] at done
      simp only [Option.map_some, ih others done]
      rcases runEach rest t with ⟨_ | results, u⟩ <;> rfl

theorem runEach_map_done (results : List α) (g : Grants) :
    runEach (results.map .done) g = (some results, g) := by
  induction results with
  | nil => rfl
  | cons a rest ih =>
    rw [List.map_cons, runEach]
    simp only [run, Program.run]
    rw [ih]

/-- Where nobody has to wait, plans that are run at once run one after another. -/
theorem runTogether_of_allDone {plans : List (Plan α)} (hp : ∀ p ∈ plans, Every Clearing p)
    (h : g.AllDone) : g.runTogether plans = runEach plans g := by
  rw [runTogether, advanceEach_of_allDone hp h]
  rcases runEach plans g with ⟨_ | results, t⟩
  · rfl
  · exact runEach_map_done results t

/-- Users are cleared as the view `w` says, in which the codes of each are still as they were. -/
theorem run_clearEach {w : View} {users : List String} (h : g.Idle) (distinct : users.Nodup)
    (agrees : g.view.Agrees users w) :
    ∃ faults t, runEach (users.map Plan.clear) g = (some faults, t) ∧
      Serves (users.flatMap (View.clearing · w)) g t ∧
      faults.map Option.isNone = users.map (View.clears · w) := by
  induction users generalizing g with
  | nil => exact ⟨[], g, rfl, .refl h, rfl⟩
  | cons user rest ih =>
    obtain ⟨apart, distinct⟩ := List.nodup_cons.1 distinct
    obtain ⟨fault, t, ran, serves, ok⟩ := run_clear h user
    rw [agrees.clearing List.mem_cons_self] at serves
    rw [agrees.clears List.mem_cons_self] at ok
    have others : t.view.Agrees rest w := by
      rw [serves.view]
      refine (agrees.mono fun u hu => List.mem_cons_of_mem _ hu).serveAll fun u hu kind r hr => ?_
      have other : u ≠ user := fun same => apart (same ▸ hu)
      exact View.entryKey_not_mem_clearing other hr kind
    obtain ⟨faults, t', ran', serves', oks⟩ := ih serves.idle distinct others
    refine ⟨fault :: faults, t', ?_, serves.trans serves', by simp [ok, oks]⟩
    rw [List.map_cons, runEach, ran]
    simp only [ran']

/-- Clearing several users at once comes to serving the requests for each of them, one user after
another. -/
theorem runWide_clearAll {w : View} {users : List String} (h : g.Idle) (distinct : users.Nodup)
    (agrees : g.view.Agrees users w) :
    ∃ faults t, g.runWide (Plan.clearAll users) = (some faults, t) ∧
      Serves (users.flatMap (View.clearing · w)) g t ∧
      faults.map Option.isNone = users.map (View.clears · w) := by
  obtain ⟨faults, t, ran, rest⟩ := run_clearEach h distinct agrees
  refine ⟨faults, t, ?_, rest⟩
  have clearing : ∀ p ∈ users.map Plan.clear, Every Clearing p := by
    intro p hp
    obtain ⟨user, -, rfl⟩ := List.mem_map.1 hp
    exact Plan.clearing_clear user
  rw [runWide, Plan.clearAll, Program.run, performWide, runTogether_of_allDone clearing h.done, ran]
  rfl

/-- Those users are counted for whom there was no fault. -/
theorem run_countCleared (h : g.Idle) (key : String) (batch : Nat)
    (users : List (String × Option Fault)) :
    ∃ t, g.run (Plan.countCleared key batch users) = (some (users.countP (·.2.isNone)), t) ∧
      Serves [] g t := by
  induction users generalizing g with
  | nil => exact ⟨g, rfl, .refl h⟩
  | cons user rest ih =>
    obtain ⟨user, _ | f⟩ := user
    · obtain ⟨t, ran, serves⟩ := ih h
      refine ⟨t, ?_, serves⟩
      rw [Plan.countCleared, run_bind_of ran, List.countP_cons]
      rfl
    · obtain ⟨t, said, first⟩ := run_notice h (.memberNotCleared key user batch f)
      obtain ⟨t', ran, serves⟩ := ih first.idle
      refine ⟨t', ?_, first.trans serves⟩
      rw [Plan.countCleared, run_bind_of said, ran, List.countP_cons]
      rfl

/-! ## Batches -/

theorem countP_zip {users : List String} {faults : List (Option Fault)} {p : String → Bool}
    (h : faults.map Option.isNone = users.map p) :
    (users.zip faults).countP (·.2.isNone) = users.countP p := by
  induction users generalizing faults with
  | nil => rfl
  | cons user rest ih =>
    cases faults with
    | nil => cases h
    | cons fault faults =>
      obtain ⟨first, others⟩ := List.cons.inj h
      rw [List.zip_cons_cons, List.countP_cons, List.countP_cons, ih others]
      simp [first]

/-- How many users are cleared at once makes no difference. -/
theorem runWide_clearBatches {w : View} {batches : List (List String)} (h : g.Idle)
    (distinct : batches.flatten.Nodup) (agrees : g.view.Agrees batches.flatten w) (key : String)
    (batch : Nat) :
    ∃ t, g.runWide (Plan.clearBatches key batch batches) =
        (some (batches.flatten.countP (View.clears · w)), t) ∧
      Serves (batches.flatten.flatMap (View.clearing · w)) g t := by
  induction batches generalizing g batch with
  | nil => exact ⟨g, rfl, .refl h⟩
  | cons users rest ih =>
    rw [List.flatten_cons] at distinct agrees ⊢
    obtain ⟨own, others, apart⟩ := List.nodup_append'.1 distinct
    obtain ⟨faults, g₁, cleared, first, ok⟩ := runWide_clearAll h own
      (agrees.mono fun u hu => List.mem_append_left _ hu)
    obtain ⟨g₂, counted, second⟩ := run_countCleared first.idle key batch (users.zip faults)
    -- The clearing of this batch does not touch the entries of users in later ones.
    have left : g₂.view.Agrees rest.flatten w := by
      rw [second.view, first.view]
      refine (agrees.mono fun u hu => List.mem_append_right _ hu).serveAll fun u hu kind r hr => ?_
      obtain ⟨user, mem, hr⟩ := List.mem_flatMap.1 hr
      have other : u ≠ user := fun same => apart mem (same ▸ hu)
      exact View.entryKey_not_mem_clearing other hr kind
    obtain ⟨g₃, ran, third⟩ := ih second.idle others left (batch + 1)
    refine ⟨g₃, ?_, ?_⟩
    · rw [Plan.clearBatches, runWide_bind_of cleared,
        runWide_bind_of ((runWide_widen _ _).trans counted), runWide_bind_of ran, countP_zip ok,
        List.countP_append]
      rfl
    · rw [List.flatMap_append]
      exact first.trans (second.trans third)

/-! ## The set of a code -/

theorem runWide_say (h : g.Idle) (e : Event) :
    ∃ t, g.runWide (Plan.report e).widen = (some (), t) ∧ Serves [] g t :=
  ⟨_, rfl, ⟨h.inner, h.done, h.typed⟩, rfl⟩

theorem runWide_clearMembers (h : g.Idle) (size : Nat) (kind : GrantKind) (code : String)
    {users : List String} (distinct : users.Nodup) (works : g.fails (kind.indexKey code) = false) :
    ∃ t, g.runWide (Plan.clearMembers size kind code users) =
        (some (users.countP (View.clears · g.view)), t) ∧
      Serves (users.flatMap (View.clearing · g.view) ++ [.delete (kind.indexKey code)]) g t := by
  have whole := Plan.flatten_batches (size - 1) users
  have once : (Plan.batches (size - 1) users).flatten.Nodup := by rwa [whole]
  obtain ⟨g₁, cleared, first⟩ := runWide_clearBatches h once (w := g.view) ⟨rfl, fun _ _ _ => rfl⟩
    (kind.indexKey code) 0
  rw [whole] at cleared first
  have still : g₁.fails (kind.indexKey code) = false := by
    have same : g₁.view.fails = g.view.fails := by rw [first.view, View.fails_serveAll]
    exact (congrFun same _).trans works
  obtain ⟨n, deleted⟩ := response_delete first.idle.inner still
  have second := serves_ask first.idle (r := .delete (kind.indexKey code)) trivial
  obtain ⟨g₂, said, third⟩ := runWide_say second.idle
    (.notice (.invalidated kind code users.length (users.countP (View.clears · g.view))))
  obtain ⟨g₃, said', fourth⟩ := runWide_say third.idle
    (.count (.invalidatedUsers kind.name) (users.countP (View.clears · g.view)))
  refine ⟨g₃, ?_, first.trans (second.trans (third.trans fourth))⟩
  rw [Plan.clearMembers, runWide_bind_of cleared,
    runWide_bind_of ((runWide_widen _ _).trans (run_ask deleted))]
  exact (runWide_bind_of said _).trans (runWide_bind_of said' _)

end Grants

namespace View

variable {v : View} {kind : GrantKind} {code : String}

/-- A set lists nobody twice. -/
theorem Typed.users_nodup (h : v.Typed) (kind : GrantKind) (code : String) :
    (v.users kind code).Nodup := by
  rw [users]
  cases he : v.item? (kind.indexKey code) with
  | none => exact List.nodup_nil
  | some e =>
    obtain ⟨names, rfl, -, listed⟩ := h kind code e he
    exact listed.nodup

/-- A set in which there is nobody is not held. -/
theorem Typed.item?_of_users_nil (h : v.Typed) (none : v.users kind code = []) :
    v.item? (kind.indexKey code) = Option.none := by
  rw [users] at none
  cases he : v.item? (kind.indexKey code) with
  | none => rfl
  | some e =>
    obtain ⟨names, rfl, some, -⟩ := h kind code e he
    rw [he] at none
    exact absurd none some

/-- To look a set up changes nothing. -/
theorem Typed.serve_members (h : v.Typed) (kind : GrantKind) (code : String) :
    v.serve (.members (kind.indexKey code)) = v := by
  refine View.ext rfl rfl (funext fun key => ?_)
  rw [View.serve]
  simp only [Request.keys, List.mem_singleton]
  split
  · rename_i own
    rw [own.1]
    exact Store.filter_isAlive_index (h kind code) _
  · rfl

theorem serve_delete_of_none {key : String} (none : v.item? key = Option.none) :
    v.serve (.delete key) = v := by
  refine View.ext rfl rfl (funext fun other => ?_)
  rw [serve]
  simp only [Request.keys, List.mem_singleton]
  split
  · rename_i own
    rw [own.1, none]
    rfl
  · rfl

end View

namespace Grants

variable {g : Grants}

/-- An invalidation serves the requests that the view asks for, and counts the users none of whose own
keys fails. -/
theorem runWide_invalidate_of_idle (h : g.Idle) (size : Nat) {kind : GrantKind} {code : String}
    (works : g.fails (kind.indexKey code) = false) :
    ∃ t, g.runWide (Plan.invalidate size kind code) =
        (some ((g.view.users kind code).countP (View.clears · g.view)), t) ∧
      Serves (g.view.invalidating kind code) g t := by
  obtain ⟨⟨⟩, g₁, settled, first⟩ := run_waiting (Plan.waiting_settle (kind.indexKey code)) h
  have works₁ : g₁.fails (kind.indexKey code) = false :=
    (congrFun (congrArg View.fails first.view) _).trans works
  have members := response_members first.idle.inner first.idle.typed works₁
  have second := serves_ask first.idle (r := .members (kind.indexKey code)) trivial
  -- Neither the settling nor the look-up changes anything.
  have view₁ : g₁.view = g.view := first.view
  have view : (g₁.ask (.members (kind.indexKey code))).2.view = g.view := by
    rw [second.view]
    exact (first.idle.typed.serve_members kind code).trans view₁
  rw [Plan.invalidate, runWide_bind_of ((runWide_widen _ _).trans settled), Plan.clearIndex,
    runWide_bind_of ((runWide_widen _ _).trans (run_ask members)), view₁]
  rw [View.invalidating]
  cases hu : g.view.users kind code with
  | nil =>
    obtain ⟨g₂, said, third⟩ := runWide_say second.idle
      (.notice (.nothingToInvalidate (kind.indexKey code)))
    refine ⟨g₂, runWide_bind_of said _, third.idle, ?_⟩
    rw [third.view, view]
    exact (View.serve_delete_of_none (h.typed.item?_of_users_nil hu)).symm
  | cons user rest =>
    have distinct := h.typed.users_nodup kind code
    rw [hu] at distinct
    have works₂ : (g₁.ask (.members (kind.indexKey code))).2.fails (kind.indexKey code) = false :=
      (congrFun (congrArg View.fails view) _).trans works
    obtain ⟨g₂, cleared, third⟩ := runWide_clearMembers second.idle size kind code distinct works₂
    rw [view] at cleared third
    exact ⟨g₂, cleared, third.idle, by rw [third.view, view]⟩

end Grants

/-! ## What is left -/

namespace View

variable {v : View} {kind k : GrantKind} {user code c key : String} {r : Request}

/-- Clearing a user only takes away. -/
theorem reduces_of_mem_clearing (hr : r ∈ v.clearing user) : r.Reduces := by
  rcases List.mem_append.1 hr with hr | hr
  · rcases List.mem_pair.1 hr with rfl | rfl <;> trivial
  · exact (Grants.removal_of_mem hr).reduces

/-- Clearing a user touches no keys but the user's own. -/
theorem mem_ownKeys_of_mem_clearing (hr : r ∈ v.clearing user) (hk : key ∈ r.keys) :
    key ∈ v.ownKeys user := by
  rcases List.mem_append.1 hr with hr | hr
  · rcases List.mem_pair.1 hr with rfl | rfl <;> simp [ownKeys, List.mem_singleton.1 hk]
  · have mem : key ∈ (Plan.removals user (v.found .role user) (v.found .permission user)).flatMap
        Request.keys := List.mem_flatMap.2 ⟨r, hr, hk⟩
    rwa [keys_removals] at mem

theorem delete_entry_mem_clearing (v : View) (k : GrantKind) (user : String) :
    .delete (k.entryKey user) ∈ v.clearing user := by
  cases k <;> simp [clearing, Plan.removals]

theorem delete_index_not_mem_clearing (v : View) (k : GrantKind) (c user : String) :
    .delete (k.indexKey c) ∉ v.clearing user := by
  have entry (k' : GrantKind) := (GrantKind.entryKey_ne_indexKey k' k user c).symm
  simp [clearing, Plan.removals, entry]

/-- A user leaves the sets of the codes that are found. -/
theorem mem_takesOut_clearing {x : String} :
    x ∈ (v.clearing user).flatMap (Request.takesOut (k.indexKey c)) ↔
      x = user ∧ c ∈ v.found k user := by
  -- One kind of codes at a time.
  have one (k' : GrantKind) (codes : List String) :
      (∃ code ∈ codes, x ∈ Request.takesOut (k.indexKey c)
        (.removeMembers (k'.indexKey code) [user])) ↔ x = user ∧ k' = k ∧ c ∈ codes := by
    simp only [Request.takesOut, GrantKind.indexKey_inj]
    constructor
    · rintro ⟨code, mem, hx⟩
      split at hx
      · rename_i same
        obtain ⟨rfl, rfl⟩ := same
        exact ⟨List.mem_singleton.1 hx, rfl, mem⟩
      · cases hx
    · rintro ⟨rfl, rfl, mem⟩
      exact ⟨c, mem, by simp⟩
  have whole : x ∈ (v.clearing user).flatMap (Request.takesOut (k.indexKey c)) ↔
      (∃ code ∈ v.found .role user, x ∈ Request.takesOut (k.indexKey c)
        (.removeMembers (GrantKind.role.indexKey code) [user])) ∨
      ∃ code ∈ v.found .permission user, x ∈ Request.takesOut (k.indexKey c)
        (.removeMembers (GrantKind.permission.indexKey code) [user]) := by
    simp [clearing, Plan.removals, Request.takesOut, List.flatMap_map]
  rw [whole, one, one]
  cases k <;> simp

/-- The view when everybody in the set of a code is cleared. -/
def invalidated (kind : GrantKind) (code : String) (v : View) : View :=
  v.serveAll (v.invalidating kind code)

/-- The set of the code is gone. -/
theorem item?_invalidated_self (works : v.fails (kind.indexKey code) = false) :
    (v.invalidated kind code).item? (kind.indexKey code) = none :=
  item?_serveAll_of_delete (List.mem_append_right _ (List.mem_singleton_self _)) works

/-- The entries of everybody in the set are gone. -/
theorem item?_invalidated_entry (hu : user ∈ v.users kind code)
    (works : v.fails (k.entryKey user) = false) :
    (v.invalidated kind code).item? (k.entryKey user) = none := by
  refine item?_serveAll_of_delete (List.mem_append_left _ ?_) works
  exact List.mem_flatMap.2 ⟨user, hu, delete_entry_mem_clearing v k user⟩

/-- Every other set is left by those in the set whose codes were found to list its own. -/
theorem item?_invalidated_index (typed : v.Typed) (works : v.fails (k.indexKey c) = false)
    (other : k.indexKey c ≠ kind.indexKey code) :
    (v.invalidated kind code).item? (k.indexKey c) =
      lessMembers ((v.users kind code).filter fun user => c ∈ v.found k user)
        (v.item? (k.indexKey c)) := by
  -- The only set that is deleted as a whole is the one of the code.
  have own : ∀ r ∈ v.invalidating kind code, r.Reduces ∧ r ≠ .delete (k.indexKey c) := by
    intro r hr
    rcases List.mem_append.1 hr with hr | hr
    · obtain ⟨user, -, hr⟩ := List.mem_flatMap.1 hr
      refine ⟨reduces_of_mem_clearing hr, ?_⟩
      rintro rfl
      exact delete_index_not_mem_clearing v k c user hr
    · obtain rfl := List.mem_singleton.1 hr
      exact ⟨trivial, fun same => other (Request.delete.inj same).symm⟩
  rw [invalidated, item?_serveAll_index works (typed k c) own]
  refine Store.lessMembers_congr (fun x => ?_) _
  have last : Request.takesOut (k.indexKey c) (.delete (kind.indexKey code)) = [] := rfl
  rw [invalidating, List.flatMap_append, List.flatMap_singleton, last, List.append_nil,
    List.flatMap_assoc, List.mem_flatMap, List.mem_filter]
  constructor
  · rintro ⟨user, hu, hx⟩
    obtain ⟨rfl, hc⟩ := mem_takesOut_clearing.1 hx
    exact ⟨hu, decide_eq_true hc⟩
  · rintro ⟨hu, hc⟩
    exact ⟨x, hu, mem_takesOut_clearing.2 ⟨rfl, of_decide_eq_true hc⟩⟩

/-- Who is left in a set was there before; it is not the set of the code, and not one that the user
was taken out of. -/
theorem mem_users_invalidated (typed : v.Typed) (works : v.fails (kind.indexKey code) = false) :
    user ∈ (v.invalidated kind code).users k c ↔
      user ∈ v.users k c ∧ k.indexKey c ≠ kind.indexKey code ∧
        ¬ (user ∈ v.users kind code ∧ c ∈ v.found k user ∧ v.fails (k.indexKey c) = false) := by
  rw [users]
  by_cases same : k.indexKey c = kind.indexKey code
  · rw [same, item?_invalidated_self works]
    simp [Store.namesOf]
  · cases fails : v.fails (k.indexKey c) with
    | true =>
      rw [invalidated, item?_serveAll_of_fails fails]
      simp [same, users]
    | false =>
      rw [item?_invalidated_index typed fails same, Store.mem_namesOf_lessMembers]
      simp [same, users]

/-- Every key that has nothing to do with anybody in the set is as it was. -/
theorem item?_invalidated_of_not_mem (other : key ≠ kind.indexKey code)
    (apart : ∀ user ∈ v.users kind code, key ∉ v.ownKeys user) :
    (v.invalidated kind code).item? key = v.item? key := by
  refine item?_serveAll_of_not_mem fun r hr hk => ?_
  rcases List.mem_append.1 hr with hr | hr
  · obtain ⟨user, hu, hr⟩ := List.mem_flatMap.1 hr
    exact apart user hu (mem_ownKeys_of_mem_clearing hr hk)
  · obtain rfl := List.mem_singleton.1 hr
    exact other (List.mem_singleton.1 hk)

end View

end GrantCache
