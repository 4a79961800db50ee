import GrantCache.Proofs.Grants.Live
import GrantCache.Proofs.Store.Names

/-!
# What look-ups and removals leave of a store

A store of this process, faulty or not, goes by the instant, by the choice of the keys that fail and
by what each key holds, alive or dead: by its `View`. A request that looks a key up or takes something
away changes the view of that key alone (`Grants.view_ask`), so many such requests can be followed key
by key.

* A key that no request is about holds what it held, and so does a key that fails.
* A key that is deleted holds nothing (`View.item?_serveAll_of_delete`).
* Of a set those names are left that no request takes out (`View.item?_serveAll_index`).
-/

namespace GrantCache

open Store (lessMembers)

/-! ## Requests that take away -/

namespace Request

/-- A request that looks one key up or takes something away from it. -/
def Reduces : Request → Prop
  | .get _ | .members _ | .delete _ | .removeMembers .. => True
  | _ => False

/-- What such a request leaves of what its key holds. -/
def leaves (now : Nat) (e : Option Entry) : Request → Option Entry
  | .delete _ => none
  | .removeMembers _ names => lessMembers names (e.filter fun e => e.isAlive now)
  | _ => e.filter fun e => e.isAlive now

@[simp] theorem leaves_none (now : Nat) (r : Request) : r.leaves now none = none := by
  cases r <;> rfl

/-- The names that a request takes out of the set under a key. -/
def takesOut (key : String) : Request → List String
  | .removeMembers key' names => if key' = key then names else []
  | _ => []

end Request

/-- A set that does not expire, with at least one name and none twice. -/
def Entry.IsIndex (e : Entry) : Prop :=
  ∃ names, e = ⟨.set names, none⟩ ∧ names ≠ [] ∧ Members.Listed names

namespace Store

variable {e : Option Entry}

/-- Names are taken out in any order, and as often as they are. -/
theorem lessMembers_congr {names others : List String} (h : ∀ x, x ∈ names ↔ x ∈ others)
    (e : Option Entry) : lessMembers names e = lessMembers others e := by
  have same (set : List String) : Members.remove set names = Members.remove set others :=
    List.filter_congr fun x _ => by simp [h x]
  unfold lessMembers
  split
  · rw [same]
  · rfl

/-- Taking out members twice is taking out all of them at once. -/
theorem lessMembers_lessMembers (names more : List String) (e : Option Entry) :
    lessMembers more (lessMembers names e) = lessMembers (names ++ more) e := by
  have twice (set : List String) :
      Members.remove (Members.remove set names) more = Members.remove set (names ++ more) := by
    simp only [Members.remove, List.filter_filter]
    exact List.filter_congr fun x _ => by simp [Bool.and_comm]
  rcases e with _ | ⟨_ | set, deadline⟩
  · rfl
  · rfl
  · rw [lessMembers, lessMembers, ← twice]
    split
    -- A set without names is gone, and nothing more is taken out of it.
    · rename_i h
      rw [List.isEmpty_iff.1 h]
      rfl
    · rfl

/-- The names in a set; none where there is no set. -/
def namesOf : Option Entry → List String
  | some ⟨.set names, _⟩ => names
  | _ => []

/-- Who is left in a set when members are taken out. -/
theorem mem_namesOf_lessMembers {x : String} {names : List String} :
    x ∈ namesOf (lessMembers names e) ↔ x ∈ namesOf e ∧ x ∉ names := by
  rcases e with _ | ⟨_ | old, deadline⟩
  · simp [lessMembers, namesOf]
  · simp [lessMembers, namesOf]
  · have left : x ∈ Members.remove old names ↔ x ∈ old ∧ x ∉ names := by simp [Members.remove]
    rw [lessMembers]
    split
    · rename_i h
      simp [namesOf, ← left, List.isEmpty_iff.1 h]
    · exact left

theorem lessMembers_nil (index : ∀ x ∈ e, x.IsIndex) : lessMembers [] e = e := by
  cases e with
  | none => rfl
  | some x =>
    obtain ⟨names, rfl, some, -⟩ := index x rfl
    simp [lessMembers, Members.remove, some]

/-- What is left of a set is a set, or nothing. -/
theorem isIndex_lessMembers (index : ∀ x ∈ e, x.IsIndex) (names : List String) :
    ∀ x ∈ lessMembers names e, x.IsIndex := by
  cases e with
  | none => nofun
  | some x =>
    obtain ⟨old, rfl, -, listed⟩ := index x rfl
    intro y hy
    rw [lessMembers] at hy
    split at hy
    · cases hy
    · rename_i some
      cases hy
      exact ⟨_, rfl, fun none => some (by rw [none]; rfl), listed.remove names⟩

/-- Sets that do not expire are alive at any instant. -/
theorem filter_isAlive_index (index : ∀ x ∈ e, x.IsIndex) (now : Nat) :
    (e.filter fun x => x.isAlive now) = e := by
  cases e with
  | none => rfl
  | some x =>
    obtain ⟨names, rfl, -⟩ := index x rfl
    rfl

end Store

/-! ## Views -/

/-- What requests go by: the instant, which keys fail, and what each key holds, alive or dead. -/
@[ext] structure View where
  now : Nat
  fails : String → Bool
  item? : String → Option Entry

namespace View

variable {v : View} {key : String} {r : Request} {rs : List Request} {names : List String}

def live? (key : String) (v : View) : Option Entry :=
  (v.item? key).filter fun e => e.isAlive v.now

/-- The codes that the live entry of a user lists. -/
def listed (kind : GrantKind) (user : String) (v : View) : List String :=
  match v.live? (kind.entryKey user) with
  | some ⟨.scalar value, _⟩ => value.texts?.getD []
  | _ => []

/-- The codes that a reading finds for a user: none if it is made to fail. -/
def found (kind : GrantKind) (user : String) (v : View) : List String :=
  if v.fails (kind.entryKey user) then [] else v.listed kind user

/-- The users in the set of a code. -/
def users (kind : GrantKind) (code : String) (v : View) : List String :=
  Store.namesOf (v.item? (kind.indexKey code))

/-- The view after a look-up or a removal. -/
def serve (v : View) (r : Request) : View :=
  { v with item? := fun key =>
      if key ∈ r.keys ∧ v.fails key = false then r.leaves v.now (v.item? key) else v.item? key }

/-- The view after one request after another. -/
def serveAll (rs : List Request) (v : View) : View := rs.foldl serve v

theorem serveAll_append (rs more : List Request) (v : View) :
    v.serveAll (rs ++ more) = (v.serveAll rs).serveAll more := List.foldl_append

@[simp] theorem now_serveAll (rs : List Request) (v : View) : (v.serveAll rs).now = v.now := by
  induction rs generalizing v with
  | nil => rfl
  | cons r rest ih => exact ih (v.serve r)

@[simp] theorem fails_serveAll (rs : List Request) (v : View) : (v.serveAll rs).fails = v.fails := by
  induction rs generalizing v with
  | nil => rfl
  | cons r rest ih => exact ih (v.serve r)

/-- A request changes nothing about keys that it does not name. -/
theorem item?_serve_of_not_mem (h : key ∉ r.keys) : (v.serve r).item? key = v.item? key :=
  if_neg fun both => h both.1

/-- Where a key fails, nothing happens to it. -/
theorem item?_serve_of_fails (h : v.fails key = true) : (v.serve r).item? key = v.item? key :=
  if_neg fun both => by simp [h] at both

/-- A request that takes away makes nothing appear. -/
theorem item?_serve_of_none (h : v.item? key = none) (r : Request) : (v.serve r).item? key = none := by
  rw [serve]
  simp only [h, Request.leaves_none, ite_self]

theorem item?_serve_delete (works : v.fails key = false) : (v.serve (.delete key)).item? key = none :=
  if_pos ⟨List.mem_singleton_self key, works⟩

/-! ### Many requests -/

/-- A key that no request is about holds what it held. -/
theorem item?_serveAll_of_not_mem (h : ∀ r ∈ rs, key ∉ r.keys) :
    (v.serveAll rs).item? key = v.item? key := by
  induction rs generalizing v with
  | nil => rfl
  | cons r rest ih =>
    have others := ih (v := v.serve r) fun r' hr' => h r' (List.mem_cons_of_mem _ hr')
    exact others.trans (item?_serve_of_not_mem (h r List.mem_cons_self))

theorem item?_serveAll_of_fails (h : v.fails key = true) :
    (v.serveAll rs).item? key = v.item? key := by
  induction rs generalizing v with
  | nil => rfl
  | cons r rest ih => exact (ih (v := v.serve r) h).trans (item?_serve_of_fails h)

theorem item?_serveAll_of_none (h : v.item? key = none) : (v.serveAll rs).item? key = none := by
  induction rs generalizing v with
  | nil => exact h
  | cons r rest ih => exact ih (item?_serve_of_none h r)

/-- A key that is deleted holds nothing. -/
theorem item?_serveAll_of_delete (h : .delete key ∈ rs) (works : v.fails key = false) :
    (v.serveAll rs).item? key = none := by
  induction rs generalizing v with
  | nil => cases h
  | cons r rest ih =>
    rcases List.mem_cons.1 h with rfl | h
    -- Nothing that follows brings an entry back.
    · exact item?_serveAll_of_none (v := v.serve (.delete key)) (item?_serve_delete works)
    · exact ih (v := v.serve r) h works

/-- A set loses those members that a request takes out. -/
theorem item?_serve_index (works : v.fails key = false) (index : ∀ e ∈ v.item? key, e.IsIndex)
    (reduces : r.Reduces) (keeps : r ≠ .delete key) :
    (v.serve r).item? key = lessMembers (r.takesOut key) (v.item? key) := by
  have whole := Store.lessMembers_nil index
  -- The sets have no deadline, so that a request which looks at one lets nothing go.
  by_cases hk : key ∈ r.keys
  · rw [serve]
    simp only [hk, works, and_self, if_true]
    cases r with
    | get k => exact (Store.filter_isAlive_index index _).trans whole.symm
    | members k => exact (Store.filter_isAlive_index index _).trans whole.symm
    | delete k =>
      obtain rfl := List.mem_singleton.1 hk
      exact absurd rfl keeps
    | removeMembers k names =>
      obtain rfl := List.mem_singleton.1 hk
      rw [Request.leaves, Store.filter_isAlive_index index, Request.takesOut, if_pos rfl]
    | _ => exact reduces.elim
  · rw [item?_serve_of_not_mem hk]
    have none : r.takesOut key = [] := by
      cases r with
      | removeMembers k names => exact if_neg fun same => hk (List.mem_singleton.2 same.symm)
      | _ => rfl
    rw [none, whole]

/-- Of a set those names are left that no request takes out. -/
theorem item?_serveAll_index (works : v.fails key = false)
    (index : ∀ e ∈ v.item? key, e.IsIndex) (own : ∀ r ∈ rs, r.Reduces ∧ r ≠ .delete key) :
    (v.serveAll rs).item? key = lessMembers (rs.flatMap (Request.takesOut key)) (v.item? key) := by
  induction rs generalizing v with
  | nil => exact (Store.lessMembers_nil index).symm
  | cons r rest ih =>
    obtain ⟨reduces, keeps⟩ := own r List.mem_cons_self
    have first := item?_serve_index works index reduces keeps
    have others := ih (v := v.serve r) works
      (by rw [first]; exact Store.isIndex_lessMembers index _)
      fun r' hr' => own r' (List.mem_cons_of_mem _ hr')
    rw [List.flatMap_cons, ← Store.lessMembers_lessMembers, ← first]
    exact others

/-! ### The keys of codes -/

/-- The keys of codes hold sets that do not expire, with at least one name. -/
def Typed (v : View) : Prop :=
  ∀ kind code, ∀ e ∈ v.item? (GrantKind.indexKey code kind), e.IsIndex

theorem Typed.serve (h : v.Typed) (reduces : r.Reduces) : (v.serve r).Typed := by
  intro kind code
  have index := h kind code
  cases works : v.fails (kind.indexKey code) with
  | true => rwa [item?_serve_of_fails works]
  | false =>
    by_cases gone : r = .delete (kind.indexKey code)
    · rw [gone, item?_serve_delete works]
      nofun
    · rw [item?_serve_index works index reduces gone]
      exact Store.isIndex_lessMembers index _

end View

/-! ## The view of a cache of grants -/

namespace Grants

variable {g : Grants} {s : Store} {r : Request} {key : String} {kind : GrantKind} {user : String}

/-- The store of this process, faulty or not. -/
def inner? (g : Grants) : Option Store := g.host.backend.store?

/-- Whether requests about a key are made to fail. -/
def fails (key : String) (g : Grants) : Bool :=
  match g.host.backend with
  | .faulty s => s.failing.contains key
  | _ => false

/-- What a key holds, alive or dead. -/
def item? (key : String) (g : Grants) : Option Entry := g.inner?.bind fun s => s.item? key

def view (g : Grants) : View := ⟨g.host.now, (g.fails ·), (g.item? ·)⟩

theorem item?_of_inner (h : g.inner? = some s) (key : String) : g.item? key = s.item? key := by
  rw [item?, h, Option.bind_some]

theorem inner?_of_store (h : g.store? = some s) : g.inner? = some s := by
  obtain ⟨⟨now, breaker, backend⟩, upkeep, ttl, size, journal⟩ := g
  cases backend with
  | bounded t => exact h
  | faulty t => cases h
  | remote t => cases h

/-- What a key holds after a request over a bounded store. -/
theorem item?_ask (h : g.store? = some s) (r : Request) (key : String) :
    (g.ask r).2.item? key = (s.serve g.host.now r).state.item? key :=
  item?_of_inner (inner?_of_store (store?_ask h r)) key

theorem fails_of_store (h : g.store? = some s) (key : String) : g.fails key = false := by
  obtain ⟨⟨now, breaker, backend⟩, upkeep, ttl, size, journal⟩ := g
  cases backend with
  | bounded t => rfl
  | faulty t => cases h
  | remote t => cases h

/-- A request about a key that is made to fail touches nothing; any other is for the store. -/
theorem ask_cases (h : g.inner? = some s) (r : Request) :
    ((∃ key ∈ r.keys, g.fails key = true) ∧ (g.ask r).1 = .fault FaultyStore.injected ∧
        (g.ask r).2.inner? = some s ∧ (g.ask r).2.view = g.view) ∨
      ((∀ key ∈ r.keys, g.fails key = false) ∧
        (g.ask r).1 = (s.serve g.host.now r).response ∧
        (g.ask r).2.inner? = some (s.serve g.host.now r).state ∧
        (g.ask r).2.view =
          ⟨g.host.now, (g.fails ·), ((s.serve g.host.now r).state.item? ·)⟩) := by
  obtain ⟨⟨now, breaker, backend⟩, upkeep, ttl, size, journal⟩ := g
  cases backend with
  | bounded t =>
    cases h
    exact Or.inr ⟨fun _ _ => rfl, rfl, rfl, rfl⟩
  | faulty t =>
    obtain rfl : t.store = s := Option.some.inj h
    rw [ask, Host.serve]
    -- A request fails as a whole if one of its keys is to fail.
    by_cases hk : r.keys.any t.failing.contains = true
    · have failed : t.serve now r =
          ⟨.fault FaultyStore.injected, { t with failures := t.failures + 1 }, []⟩ := if_pos hk
      simp only [failed]
      exact Or.inl ⟨List.any_eq_true.1 hk, trivial, rfl, rfl⟩
    · have served : t.serve now r = ⟨(t.store.serve now r).response,
          { t with store := (t.store.serve now r).state }, (t.store.serve now r).events⟩ := if_neg hk
      simp only [served]
      refine Or.inr ⟨fun key mem => ?_, trivial, rfl, rfl⟩
      exact Bool.eq_false_iff.2 fun fails => hk (List.any_eq_true.2 ⟨key, mem, fails⟩)
  | remote t => cases h

theorem isSome_inner?_ask (h : g.inner?.isSome) (r : Request) : (g.ask r).2.inner?.isSome := by
  obtain ⟨s, hs⟩ := Option.isSome_iff_exists.1 h
  rcases ask_cases hs r with ⟨-, -, inner, -⟩ | ⟨-, -, inner, -⟩
  · rw [inner]
    rfl
  · rw [inner]
    rfl

theorem purge_of_inner (h : g.inner? = some s) :
    g.purge.2.inner? = some (s.sweep g.host.now).2.1 ∧
      g.purge.2.view = ⟨g.host.now, (g.fails ·), ((s.sweep g.host.now).2.1.item? ·)⟩ := by
  obtain ⟨⟨now, breaker, backend⟩, upkeep, ttl, size, journal⟩ := g
  cases backend with
  | bounded t =>
    cases h
    exact ⟨rfl, rfl⟩
  | faulty t =>
    cases h
    exact ⟨rfl, rfl⟩
  | remote t => cases h

/-- What a look-up or a removal does to the store is what it does to the view. -/
theorem view_ask (h : g.inner?.isSome) (reduces : r.Reduces) :
    (g.ask r).2.view = g.view.serve r := by
  obtain ⟨s, hs⟩ := Option.isSome_iff_exists.1 h
  have entries : g.view.item? = (s.item? ·) := funext (item?_of_inner hs)
  rcases ask_cases hs r with ⟨⟨key, mem, fails⟩, -, -, view⟩ | ⟨works, -, -, view⟩
  · rw [view]
    refine View.ext rfl rfl (funext fun other => ?_)
    -- the one key of the request is the one that fails
    have single : other ∈ r.keys → other = key := by
      cases r with
      | get k | members k | delete k | removeMembers k names =>
        rw [List.mem_singleton.1 mem]
        exact List.mem_singleton.1
      | _ => exact reduces.elim
    by_cases ho : other ∈ r.keys
    · exact (View.item?_serve_of_fails (single ho ▸ fails)).symm
    · exact (View.item?_serve_of_not_mem ho).symm
  · rw [view]
    refine View.ext rfl rfl (funext fun other => ?_)
    have served : (g.view.serve r).item? other =
        if other ∈ r.keys then r.leaves g.host.now (s.item? other) else s.item? other := by
      rw [View.serve]
      simp only [entries]
      by_cases ho : other ∈ r.keys
      · simp only [ho, if_true, true_and, show g.view.fails other = false from works other ho]
        rfl
      · simp only [ho, if_false, false_and]
    rw [served]
    -- Each of these requests changes its own key only, by what it leaves there.
    have own {k : String} {e : Option Entry} (hk : r.keys = [k])
        (he : (s.serve g.host.now r).state.item? other = if k = other then e else s.item? other)
        (hl : k = other → e = r.leaves g.host.now (s.item? other)) :
        (s.serve g.host.now r).state.item? other =
          if other ∈ r.keys then r.leaves g.host.now (s.item? other) else s.item? other := by
      rw [he, hk]
      by_cases same : k = other
      · simp [same, hl same]
      · simp [same, Ne.symm same]
    cases r with
    | get k => exact own rfl (Store.item?_get ..) fun same => by rw [same]; rfl
    | members k => exact own rfl (Store.item?_members ..) fun same => by rw [same]; rfl
    | delete k => exact own rfl (Store.item?_delete ..) fun _ => rfl
    | removeMembers k names =>
      exact own rfl (Store.item?_removeMembers ..) fun same => by rw [same]; rfl
    | _ => exact reduces.elim

/-! ### Answers -/

/-- A request that names a failing key is answered with the injected fault. -/
theorem response_of_fails (h : g.inner?.isSome) (mem : key ∈ r.keys) (fails : g.fails key = true) :
    (g.ask r).1 = .fault FaultyStore.injected := by
  obtain ⟨s, hs⟩ := Option.isSome_iff_exists.1 h
  rcases ask_cases hs r with ⟨-, response, -⟩ | ⟨works, -⟩
  · exact response
  · rw [works key mem] at fails
    cases fails

/-- A request whose keys work is answered by the store. -/
theorem response_of_works (hs : g.inner? = some s) (works : ∀ key ∈ r.keys, g.fails key = false) :
    (g.ask r).1 = (s.serve g.host.now r).response := by
  rcases ask_cases hs r with ⟨⟨key, mem, fails⟩, -⟩ | ⟨-, response, -⟩
  · rw [works key mem] at fails
    cases fails
  · exact response

theorem live?_view (hs : g.inner? = some s) (key : String) :
    g.view.live? key = s.live? g.host.now key := by
  rw [View.live?, Store.live?_eq, ← item?_of_inner hs]
  rfl

theorem response_get (h : g.inner?.isSome) (works : g.fails key = false) :
    (g.ask (.get key)).1 =
      match g.view.live? key with
      | some ⟨.scalar v, _⟩ => .ok (some v)
      | some ⟨.set _, _⟩ => .fault (.wrongType key)
      | none => .ok none := by
  obtain ⟨s, hs⟩ := Option.isSome_iff_exists.1 h
  rw [response_of_works hs (by simpa [Request.keys] using works), live?_view hs]
  exact Store.response_get ..

theorem response_delete (h : g.inner?.isSome) (works : g.fails key = false) :
    ∃ n, (g.ask (.delete key)).1 = .ok n := by
  obtain ⟨s, hs⟩ := Option.isSome_iff_exists.1 h
  rw [response_of_works hs (by simpa [Request.keys] using works)]
  exact ⟨_, rfl⟩

/-- The set of a code lists the users, and it is no value. -/
theorem response_members (h : g.inner?.isSome) (typed : g.view.Typed) {code : String}
    (works : g.fails (kind.indexKey code) = false) :
    (g.ask (.members (kind.indexKey code))).1 = .ok (g.view.users kind code) := by
  obtain ⟨s, hs⟩ := Option.isSome_iff_exists.1 h
  have index := typed kind code
  rw [response_of_works hs (by simpa [Request.keys] using works)]
  refine (Store.response_members ..).trans ?_
  rw [← live?_view hs, View.live?, Store.filter_isAlive_index index, View.users]
  cases he : g.view.item? (kind.indexKey code) with
  | none => rfl
  | some e =>
    obtain ⟨names, rfl, -⟩ := index e he
    rfl

theorem response_removeMembers (h : g.inner?.isSome) (typed : g.view.Typed) {code : String}
    (works : g.fails (kind.indexKey code) = false) (names : List String) :
    ∃ n, (g.ask (.removeMembers (kind.indexKey code) names)).1 = .ok n := by
  obtain ⟨s, hs⟩ := Option.isSome_iff_exists.1 h
  have index := typed kind code
  rw [response_of_works hs (by simpa [Request.keys] using works)]
  have used := Store.use_fst g.host.now (kind.indexKey code) s
  rw [← live?_view hs, View.live?, Store.filter_isAlive_index index] at used
  rw [Store.serve, Store.removeMembers]
  split
  · simp only
    split <;> exact ⟨_, rfl⟩
  · rename_i he
    obtain ⟨old, set, -⟩ := index _ (used.symm.trans (congrArg Prod.fst he))
    cases set
  · exact ⟨_, rfl⟩

end Grants

end GrantCache
