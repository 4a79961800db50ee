import GrantCache.Proofs.Remote.Serving
import Mathlib.Algebra.GroupWithZero.Nat

/-!
# Deleting by pattern, page by page

The keys that match a pattern are told by the server in pages. Each page names the cursor of the
next one, and its keys are deleted before that one is asked for. `walk` lists the commands for a
number of pages, and `Ends` says in which ways a walk can end: after the page whose next cursor is
zero, with a page that is not told, or with keys of which it is not told that they were deleted.

Whatever the server does, a deletion is a walk through pages with cursors other than zero and one of
these ends (`scanAndDelete_walks`, by the recursion of `scanAndDelete`, one page at a time). What
the circuit counts for it is put beside that in `deletePattern_walks`.
-/

namespace GrantCache.Remote

/-! ## Pages -/

/-- A page of keys, the cursor of the page after it, and how many of the keys were deleted. -/
structure Page where
  keys : List String
  next : Nat
  removed : Nat

def scanAt (pattern : String) (cursor : Nat) : Command :=
  ["SCAN", Numeral.text cursor, "MATCH", pattern, "COUNT", "500"]

/-- The commands for a page: it is asked for, and all its keys are deleted, if it has any. -/
def Page.commands (pattern : String) (cursor : Nat) (p : Page) : List Command :=
  scanAt pattern cursor :: if p.keys = [] then [] else ["DEL" :: p.keys]

/-- The replies to the commands for a page. -/
inductive Page.Reads : Page → List Reply → Prop
  | empty {next : Nat} {page : Reply} (proper : page.isError = false)
      (reads : page.page? = some (next, [])) : Reads ⟨[], next, 0⟩ [page]
  | deleted {keys : List String} {next n : Nat} {page count : Reply} (proper : page.isError = false)
      (reads : page.page? = some (next, keys)) (some_ : keys ≠ []) (deletes : count.isError = false)
      (counts : count.count? = some n) : Reads ⟨keys, next, n⟩ [page, count]

/-- The commands for pages, each of them asked for at the cursor that the page before it named. -/
def walk (pattern : String) : Nat → List Page → List Command
  | _, [] => []
  | cursor, p :: rest => p.commands pattern cursor ++ walk pattern p.next rest

/-- The cursor that the last of some pages named. -/
def cursorAfter : Nat → List Page → Nat
  | cursor, [] => cursor
  | _, p :: rest => cursorAfter p.next rest

/-- The first acts tell these pages, each of them in time, one after another. -/
inductive Tells (deadline : Nat) : List Act → Nat → List Page → Nat → List Act → Prop
  | none {acts : List Act} {now : Nat} : Tells deadline acts now [] now acts
  | page {acts middle rest : List Act} {now t t' : Nat} {p : Page} {pages : List Page}
      {replies : List Reply} (told : Link.InTime deadline acts now replies t middle)
      (reads : p.Reads replies) (others : Tells deadline middle t pages t' rest) :
      Tells deadline acts now (p :: pages) t' rest

/-! ## Ends -/

/-- The next act is not a reply that comes in time and can be read, and this error is what it comes
to. Without acts the server says an error. -/
inductive Misses {α : Type} (limit deadline : Nat) (read? : Reply → Option α) :
    List Act → Nat → Fault → Prop
  | silent {now : Nat} : Misses limit deadline read? [] now .remote
  | late {act : Act} {acts : List Act} {now t : Nat} (heard : act.await deadline now = (t, .late)) :
      Misses limit deadline read? (act :: acts) now (.timeout (.ofMillis limit))
  | dropped {act : Act} {acts : List Act} {now t : Nat}
      (heard : act.await deadline now = (t, .dropped)) :
      Misses limit deadline read? (act :: acts) now .remote
  | error {act : Act} {acts : List Act} {r : Reply} {now t : Nat}
      (told : act.InTime deadline r t now) (error : r.isError = true) :
      Misses limit deadline read? (act :: acts) now .remote
  | unreadable {act : Act} {acts : List Act} {r : Reply} {now t : Nat}
      (told : act.InTime deadline r t now) (unreadable : read? r = none) :
      Misses limit deadline read? (act :: acts) now .remote

/-- How a walk ends that has come to a cursor: the commands that are still sent, and what they come
to. -/
inductive Ends (pattern : String) (limit deadline cursor : Nat) (acts : List Act) (now : Nat) :
    List Command → Except Fault Nat → Prop
  | last {p : Page} {t : Nat} {rest : List Act} (told : Tells deadline acts now [p] t rest)
      (zero : p.next = 0) :
      Ends pattern limit deadline cursor acts now (p.commands pattern cursor) (.ok p.removed)
  | noPage {f : Fault} (missed : Misses limit deadline Reply.page? acts now f) :
      Ends pattern limit deadline cursor acts now [scanAt pattern cursor] (.error f)
  | noCount {page : Reply} {keys : List String} {next t : Nat} {rest : List Act} {f : Fault}
      (told : Link.InTime deadline acts now [page] t rest) (proper : page.isError = false)
      (reads : page.page? = some (next, keys)) (some_ : keys ≠ [])
      (missed : Misses limit deadline Reply.count? rest t f) :
      Ends pattern limit deadline cursor acts now [scanAt pattern cursor, "DEL" :: keys] (.error f)

/-- From a cursor on, and with so many keys removed before, a walk through pages that are not the
last ones and its end come to this result and these commands. -/
def Walks (pattern : String) (limit deadline cursor removed now : Nat) (link : Link)
    (result : Except Fault Nat) (sent : List Command) : Prop :=
  ∃ pages t rest commands outcome, (∀ p ∈ pages, p.next ≠ 0) ∧
    Tells deadline link.acts now pages t rest ∧
    Ends pattern limit deadline (cursorAfter cursor pages) rest t commands outcome ∧
    result = outcome.map (removed + (pages.map (·.removed)).sum + ·) ∧
    sent = (walk pattern cursor pages ++ commands).reverse ++ link.sent

variable {pattern : String} {limit deadline cursor removed now t : Nat} {link next : Link}
  {command : Command} {result : Except Fault Nat} {sent : List Command}

theorem scanCommand_eq (pattern : String) (cursor : Nat) :
    scanCommand pattern cursor = scanAt pattern cursor := by
  have count : Numeral.text scanCount = "500" := by decide +kernel
  rw [scanCommand, count, scanAt]

theorem Page.commands_of_ne_nil {p : Page} (h : p.keys ≠ []) :
    p.commands pattern cursor = [scanAt pattern cursor, "DEL" :: p.keys] := by
  rw [commands, if_neg h]

/-! ### Single commands -/

/-- What is heard counts as an error unless it is a reply that can be read. -/
theorem misses_of_ask {α : Type} {read? : Reply → Option α} {heard : Heard} (limit : Nat)
    (asked : link.ask deadline command now = (heard, t, next))
    (unread : ∀ r, heard = .reply r → (if r.isError then none else read? r) = none) :
    Misses limit deadline read? link.acts now (notHeard limit heard) ∧
      next.sent = command :: link.sent := by
  obtain ⟨listening, acts, sent⟩ := link
  cases acts with
  -- Without acts the server answers with an error.
  | nil =>
    cases asked
    exact ⟨.silent, rfl⟩
  | cons act acts =>
    obtain ⟨what, asked⟩ := Prod.mk.inj asked
    obtain ⟨instant, rfl⟩ := Prod.mk.inj asked
    have told : act.await deadline now = (t, heard) := Prod.ext instant what
    refine ⟨?_, rfl⟩
    cases heard with
    | late => exact .late told
    | dropped => exact .dropped told
    | reply r =>
      have inTime := Act.await_eq_reply_iff.1 told
      by_cases error : r.isError = true
      · exact .error inTime error
      · have unread := unread r rfl
        rw [if_neg error] at unread
        exact .unreadable inTime unread

/-! ### Single pages -/

/-- A page without keys is one command and one reply. -/
theorem Page.empty_told {page : Reply} {paged : Link} {named : Nat}
    (asked : link.ask deadline (scanCommand pattern cursor) now = (.reply page, t, paged))
    (reads : (if _ : page.isError then none else page.page?) = some (named, [])) :
    ∃ rest, Link.InTime deadline link.acts now [page] t rest ∧ Page.Reads ⟨[], named, 0⟩ [page] ∧
      paged = { link with
        acts := rest
        sent := (Page.commands pattern cursor ⟨[], named, 0⟩).reverse ++ link.sent } := by
  obtain ⟨proper, reads⟩ := proper_of_reads reads
  obtain ⟨rest, told, rfl⟩ := (Link.ask_eq_reply_iff proper).1 asked
  rw [scanCommand_eq]
  exact ⟨rest, told, .empty proper reads, rfl⟩

/-- A page with keys is two commands and two replies, the second of which tells how many of the keys
were deleted. -/
theorem Page.deleted_told {page count : Reply} {paged after : Link} {named n t' : Nat}
    {keys : List String}
    (asked : link.ask deadline (scanCommand pattern cursor) now = (.reply page, t, paged))
    (reads : (if _ : page.isError then none else page.page?) = some (named, keys))
    (some_ : keys ≠ [])
    (askedDelete : paged.ask deadline ("DEL" :: keys) t = (.reply count, t', after))
    (counts : (if _ : count.isError then none else count.count?) = some n) :
    ∃ rest, Link.InTime deadline link.acts now [page, count] t' rest ∧
      Page.Reads ⟨keys, named, n⟩ [page, count] ∧
      after = { link with
        acts := rest
        sent := (Page.commands pattern cursor ⟨keys, named, n⟩).reverse ++ link.sent } := by
  obtain ⟨proper, reads⟩ := proper_of_reads reads
  obtain ⟨deletes, counts⟩ := proper_of_reads counts
  obtain ⟨middle, told, rfl⟩ := (Link.ask_eq_reply_iff proper).1 asked
  obtain ⟨rest, told', rfl⟩ := (Link.ask_eq_reply_iff deletes).1 askedDelete
  rw [scanCommand_eq, Page.commands_of_ne_nil some_]
  exact ⟨rest, told.append told', .deleted proper reads some_ deletes counts, rfl⟩

/-- A page is told, its keys were deleted, and the walk goes on at its cursor. -/
theorem Walks.page {p : Page} {replies : List Reply} {middle : List Act}
    (told : Link.InTime deadline link.acts now replies t middle) (reads : p.Reads replies)
    (goesOn : p.next ≠ 0) (acts : next.acts = middle)
    (before : next.sent = (p.commands pattern cursor).reverse ++ link.sent)
    (h : Walks pattern limit deadline p.next (removed + p.removed) t next result sent) :
    Walks pattern limit deadline cursor removed now link result sent := by
  obtain ⟨pages, t', rest, commands, outcome, others, tells, ends, rfl, rfl⟩ := h
  refine ⟨p :: pages, t', rest, commands, outcome, List.forall_mem_cons.2 ⟨goesOn, others⟩,
    .page told reads (acts ▸ tells), ends, ?_, ?_⟩
  · rw [List.map_cons, List.sum_cons, Nat.add_assoc removed]
  · simp only [before, walk, List.append_assoc, List.reverse_append]

/-- The walk ends here. -/
theorem Walks.ends {commands : List Command} {outcome : Except Fault Nat}
    (h : Ends pattern limit deadline cursor link.acts now commands outcome) :
    Walks pattern limit deadline cursor removed now link (outcome.map (removed + ·))
      (commands.reverse ++ link.sent) :=
  ⟨[], now, link.acts, commands, outcome, nofun, .none, h, rfl, rfl⟩

/-! ## The whole walk -/

theorem scanAndDelete_walks (pattern : String) (limit deadline cursor removed now : Nat)
    (link : Link) :
    Walks pattern limit deadline cursor removed now link
      (scanAndDelete pattern limit deadline cursor removed now link).1
      (scanAndDelete pattern limit deadline cursor removed now link).2.2.sent := by
  fun_induction scanAndDelete pattern limit deadline cursor removed now link with
  -- The server says nothing more.
  | case1 cursor removed now link silent =>
    have missed : Misses limit deadline Reply.page? link.acts now .remote := silent ▸ .silent
    rw [scanCommand_eq]
    exact .ends (.noPage missed)
  -- A reply comes, but it is no page.
  | case2 cursor removed now link _ _ _ page t paged asked unread =>
    obtain ⟨missed, sent⟩ := misses_of_ask limit asked fun r same =>
      Heard.reply.inj same ▸ unread
    rw [sent, scanCommand_eq]
    exact .ends (.noPage missed)
  -- Pages without keys, the last one and one that is not.
  | case3 cursor removed now link _ _ _ page t paged asked keys none reads =>
    obtain rfl := List.isEmpty_iff.1 none
    obtain ⟨rest, told, read, rfl⟩ := Page.empty_told asked reads
    exact .ends (.last (.page told read .none) rfl)
  | case4 cursor removed now link _ _ _ page t paged asked next keys reads none goesOn ih =>
    obtain rfl := List.isEmpty_iff.1 none
    obtain ⟨rest, told, read, rfl⟩ := Page.empty_told asked reads
    exact .page told read goesOn rfl rfl ih
  -- Keys are to be deleted, and the reply to that is no count.
  | case5 cursor removed now link _ _ _ page t paged asked next keys reads some_ count t' after
      askedDelete unread =>
    obtain ⟨proper, reads⟩ := proper_of_reads reads
    obtain ⟨middle, told, rfl⟩ := (Link.ask_eq_reply_iff proper).1 asked
    obtain ⟨missed, sent⟩ := misses_of_ask limit askedDelete fun r same =>
      Heard.reply.inj same ▸ unread
    rw [sent, scanCommand_eq]
    exact .ends (.noCount told proper reads (by simpa using some_) missed)
  -- Pages whose keys are deleted, the last one and one that is not.
  | case6 cursor removed now link _ _ _ page t paged asked keys some_ count t' after askedDelete n
      counts reads =>
    obtain ⟨rest, told, read, rfl⟩ :=
      Page.deleted_told asked reads (by simpa using some_) askedDelete counts
    exact .ends (.last (.page told read .none) rfl)
  | case7 cursor removed now link _ _ _ page t paged asked next keys reads some_ count t' after
      askedDelete n counts goesOn ih =>
    obtain ⟨rest, told, read, rfl⟩ :=
      Page.deleted_told asked reads (by simpa using some_) askedDelete counts
    exact .page told read goesOn rfl rfl ih
  -- No reply at all is heard, to the deletion or else to the request for the page.
  | case8 cursor removed now link _ _ _ page t paged asked next keys reads some_ heard t' after
      other askedDelete =>
    obtain ⟨proper, reads⟩ := proper_of_reads reads
    obtain ⟨middle, told, rfl⟩ := (Link.ask_eq_reply_iff proper).1 asked
    obtain ⟨missed, sent⟩ := misses_of_ask limit askedDelete fun r same =>
      absurd same (other r)
    rw [sent, scanCommand_eq]
    exact .ends (.noCount told proper reads (by simpa using some_) missed)
  | case9 cursor removed now link _ _ _ heard t paged other asked =>
    obtain ⟨missed, sent⟩ := misses_of_ask limit asked fun r same =>
      absurd same (other r)
    rw [sent, scanCommand_eq]
    exact .ends (.noPage missed)

/-! ## Under the circuit -/

/-- What an admitted call does if there is a connection. -/
theorem call_of_listening {scene : Scene} (r : Request) (admitted : scene.enter.1 = true)
    (listening : scene.remote.link.listening = true) :
    let told := talk r (scene.remote.allowance r) scene.now scene.remote.link
    (call r scene).1 = told.1 ∧ (call r scene).2.1.remote.link = told.2.2 := by
  intro told
  have heard : converse (scene.remote.limit r) (talk r)
      { scene with breaker := scene.enter.2.1 } =
        (told.1, ⟨told.2.1, scene.enter.2.1, { scene.remote with link := told.2.2 }⟩) := by
    rw [converse, limit_eq, if_pos listening]
  rw [call, enter_eq admitted]
  simp only [heard]
  rcases told with ⟨⟨f⟩ | ⟨raw⟩, now, link⟩
  · exact ⟨rfl, rfl⟩
  · exact ⟨rfl, rfl⟩

/-- Without a connection nothing is sent. -/
theorem call_of_deaf {scene : Scene} (r : Request) (admitted : scene.enter.1 = true)
    (deaf : scene.remote.link.listening = false) :
    (call r scene).1 = .error (.pool "connection refused") ∧
      (call r scene).2.1.remote = scene.remote := by
  have refused : converse (scene.remote.limit r) (talk r)
      { scene with breaker := scene.enter.2.1 } =
        (.error (.pool "connection refused"), { scene with breaker := scene.enter.2.1 }) := by
    rw [converse, if_neg (by simp [deaf])]
  rw [call, enter_eq admitted]
  simp only [refused, and_self]

/-- An admitted deletion by pattern is one walk through the pages that the server tells, from cursor
zero on and each page asked for at the cursor that the one before it named: after a page with keys
these keys are deleted, in the same order and before anything else is sent, and after a page without
keys nothing is. The walk goes on while the pages name other cursors than zero. It ends well after
the page that names zero, and then the counts of deleted keys are added up; at the first reply that
is missed it ends with its error, and nothing more is sent. The circuit counts one end, whatever the
number of pages. -/
theorem deletePattern_walks (scene : Scene) (pattern : String) (admitted : scene.enter.1 = true) :
    let served := serve scene (.deletePattern pattern)
    let link := scene.remote.link
    ∃ outcome : Except Fault Nat,
      served.response = (match outcome with | .ok n => .ok n | .error f => .fault f) ∧
      served.state.breaker =
        (scene.enter.2.1.finish circuitName scene.policy served.state.now outcome.isOk).1 ∧
      (link.listening = false → outcome = .error (.pool "connection refused") ∧
        served.state.remote.link.sent = link.sent) ∧
      (link.listening = true → ∃ pages t rest commands last,
        (∀ p ∈ pages, p.next ≠ 0) ∧
        Tells (scene.now + 30000) link.acts scene.now pages t rest ∧
        Ends pattern 30000 (scene.now + 30000) (cursorAfter 0 pages) rest t commands last ∧
        outcome = last.map ((pages.map (·.removed)).sum + ·) ∧
        served.state.remote.link.sent =
          (walk pattern 0 pages ++ commands).reverse ++ link.sent) := by
  intro served link
  let r : Request := .deletePattern pattern
  obtain ⟨state, told, failed⟩ := serve_of_sent (r := r) scene rfl
  refine ⟨(call r scene).1, ?_, ?_, fun deaf => ?_, fun listening => ?_⟩
  · rcases he : (call r scene).1 with f | n
    · exact failed f he
    · rcases told n he with ⟨answer, read, response⟩ | ⟨read, -⟩
      · cases read
        exact response
      · cases read
  · obtain ⟨ok, counted, ended⟩ := call_of_admitted r admitted
    rw [show served.state = (call r scene).2.1 from state, counted]
    rcases ended with ⟨rfl, raw, -, he⟩ | ⟨rfl, -, f, -, he⟩
    · rw [he]
      rfl
    · rw [he]
      rfl
  · obtain ⟨result, same⟩ := call_of_deaf r admitted deaf
    exact ⟨result, by rw [show served.state = (call r scene).2.1 from state, same]⟩
  · obtain ⟨result, after⟩ := call_of_listening r admitted listening
    obtain ⟨pages, t, rest, commands, last, others, tells, ends, came, sent⟩ :=
      scanAndDelete_walks pattern 30000 (scene.now + 30000) 0 0 scene.now link
    refine ⟨pages, t, rest, commands, last, others, tells, ends, ?_, ?_⟩
    · rw [Nat.zero_add] at came
      exact result.trans came
    · rw [show served.state = (call r scene).2.1 from state, after]
      exact sent

/-- An empty page comes first, and the last one has two keys. -/
theorem deletePattern_walks_past_empty_page :
    let scene : Scene := ⟨0, {}, { link := { acts := [.reply (.array [.bulk "7", .array []]),
      .delay 5 (.reply (.array [.int 0, .array [.bulk "a", .bulk "b"]])), .reply (.int 2)] } }⟩
    let served := serve scene (.deletePattern "k:*")
    scene.enter.1 = true ∧ served.response = .ok (2 : Nat) ∧
      served.state.remote.link.sent = [["DEL", "a", "b"],
        ["SCAN", "7", "MATCH", "k:*", "COUNT", "500"],
        ["SCAN", "0", "MATCH", "k:*", "COUNT", "500"]] ∧
      served.state.breaker = (scene.enter.2.1.finish circuitName scene.policy 5 true).1 := by
  intro scene served
  have admitted : scene.enter.1 = true := by decide +kernel
  have response : served.response = .ok (2 : Nat) := by decide +kernel
  have instant : served.state.now = 5 := by decide +kernel
  obtain ⟨outcome, same, counted, -, -⟩ := deletePattern_walks scene "k:*" admitted
  refine ⟨admitted, response, by decide +kernel, ?_⟩
  rcases outcome with f | n
  · cases response.symm.trans same
  · rw [← instant]
    exact counted

end GrantCache.Remote
