import GrantCache.Remote

/-!
# What is heard on the wire

Whether a request succeeds on the wire depends on the replies that come before the deadline
(`Link.InTime`) and on whether they can be read (`Remote.Reads`). This module says so of each kind
of talk, a single command, a transaction and a scan, and then of all requests
(`Remote.talk_eq_ok_iff`).
-/

namespace GrantCache

/-! ## Replies in time -/

/-- After delays that end before the deadline the act is a reply, at the instant `t`. -/
inductive Act.InTime (deadline : Nat) (r : Reply) (t : Nat) : Act → Nat → Prop
  | reply : InTime deadline r t (.reply r) t
  | delay {ms now : Nat} {act : Act} (ends : now + ms < deadline)
      (then_ : InTime deadline r t act (now + ms)) : InTime deadline r t (.delay ms act) now

theorem Act.await_eq_reply_iff {deadline now t : Nat} {act : Act} {r : Reply} :
    act.await deadline now = (t, .reply r) ↔ act.InTime deadline r t now := by
  induction act generalizing now with
  | reply r' =>
    rw [await]
    constructor
    · intro h
      cases h
      exact .reply
    · intro h
      cases h
      rfl
  | close =>
    refine iff_of_false ?_ ?_
    · intro h
      cases h
    · intro h
      cases h
  | delay ms act ih =>
    rw [await]
    -- A wait that reaches the deadline ends it, whatever would come after.
    by_cases late : deadline ≤ now + ms
    · rw [if_pos late]
      refine iff_of_false ?_ ?_
      · intro h
        cases h
      · intro h
        cases h with
        | delay ends => omega
    · rw [if_neg late, ih]
      constructor
      · exact .delay (by omega)
      · intro h
        cases h with
        | delay ends then_ => exact then_

namespace Link

/-- The first acts are these replies, each of them in time, one after another. -/
inductive InTime (deadline : Nat) : List Act → Nat → List Reply → Nat → List Act → Prop
  | none {acts : List Act} {now : Nat} : InTime deadline acts now [] now acts
  | next {act : Act} {acts rest : List Act} {now t t' : Nat} {r : Reply} {rs : List Reply}
      (first : act.InTime deadline r t now) (others : InTime deadline acts t rs t' rest) :
      InTime deadline (act :: acts) now (r :: rs) t' rest

variable {deadline now t : Nat} {link : Link} {command : Command} {r : Reply}

/-- Replies that come one after the other come in time together. -/
theorem InTime.append {acts middle rest : List Act} {t' : Nat} {rs rs' : List Reply}
    (h : InTime deadline acts now rs t middle) (h' : InTime deadline middle t rs' t' rest) :
    InTime deadline acts now (rs ++ rs') t' rest := by
  induction h with
  | none => exact h'
  | next first others ih => exact .next first (ih h')

theorem InTime.uncons {acts rest : List Act} {rs : List Reply}
    (h : InTime deadline acts now (r :: rs) t rest) :
    ∃ middle t', InTime deadline acts now [r] t' middle ∧ InTime deadline middle t' rs t rest := by
  cases h with
  | next first others => exact ⟨_, _, .next first .none, others⟩

/-- A reply that is no error was heard in time; without acts the server says an error. -/
theorem ask_eq_reply_iff {next : Link} (proper : r.isError = false) :
    link.ask deadline command now = (.reply r, t, next) ↔
      ∃ rest, InTime deadline link.acts now [r] t rest ∧
        next = { link with acts := rest, sent := command :: link.sent } := by
  -- A server that has run out of acts answers with an error, which `proper` excludes.
  obtain ⟨listening, acts, sent⟩ := link
  cases acts with
  | nil =>
    refine iff_of_false ?_ ?_
    · intro h
      obtain ⟨heard, -⟩ := Prod.mk.inj h
      obtain rfl := Heard.reply.inj heard
      cases proper
    · rintro ⟨rest, ⟨⟩, -⟩
  | cons act acts =>
    constructor
    · intro h
      obtain ⟨heard, h⟩ := Prod.mk.inj h
      obtain ⟨instant, rfl⟩ := Prod.mk.inj h
      have told : act.await deadline now = (t, .reply r) := Prod.ext instant heard
      exact ⟨acts, .next (Act.await_eq_reply_iff.1 told) .none, rfl⟩
    · rintro ⟨rest, told, rfl⟩
      cases told with
      | next first others =>
        cases others
        have heard := Act.await_eq_reply_iff.2 first
        simp only [ask, nextAct, heard]

/-- Replies that are no errors were all heard in time. -/
theorem hearAll_eq_ok_iff {next : Link} {commands : List Command} {replies : List Reply}
    (proper : Reply.anyError replies = false) :
    link.hearAll deadline commands now = (.ok replies, t, next) ↔
      ∃ rest, InTime deadline link.acts now replies t rest ∧ replies.length = commands.length ∧
        next = { link with acts := rest, sent := commands.reverse ++ link.sent } := by
  induction commands generalizing now link replies next with
  | nil =>
    obtain ⟨listening, acts, sent⟩ := link
    rw [hearAll]
    constructor
    -- The first reply is heard by `ask`, and the others at the instant and the link that it leaves.
    · intro h
      cases h
      exact ⟨acts, .none, rfl, rfl⟩
    · rintro ⟨rest, told, empty, rfl⟩
      obtain rfl := List.length_eq_zero_iff.1 empty
      cases told
      rfl
  | cons command commands ih =>
    obtain ⟨listening, acts, sent⟩ := link
    rw [hearAll]
    constructor
    · intro h
      split at h
      · rename_i r t' link' heard
        split at h
        · rename_i rs t'' link'' others
          cases h
          obtain ⟨first, more⟩ := Bool.or_eq_false_iff.1 proper
          obtain ⟨middle, told, rfl⟩ := (ask_eq_reply_iff first).1 heard
          obtain ⟨rest, told', length, rfl⟩ := (ih more).1 others
          cases told with
          | next told none =>
            cases none
            refine ⟨rest, .next told told', congrArg (· + 1) length, ?_⟩
            simp only [List.reverse_cons, List.append_assoc, List.singleton_append]
        · cases h
      · cases h
      · cases h
    · rintro ⟨rest, told, length, rfl⟩
      cases told with
      | none => cases length
      | @next act acts rest now middle t r rs told others =>
        obtain ⟨first, more⟩ := Bool.or_eq_false_iff.1 proper
        have heard : hearAll deadline commands middle ⟨listening, acts, command :: sent⟩ =
            (.ok rs, t, ⟨listening, rest, commands.reverse ++ command :: sent⟩) :=
          (ih more).2 ⟨rest, others, Nat.succ.inj length, rfl⟩
        rw [(ask_eq_reply_iff first).2 ⟨_, .next told .none, rfl⟩]
        simp only [heard, List.reverse_cons, List.append_assoc, List.singleton_append]

end Link

namespace Remote

variable {now t limit deadline : Nat} {link : Link} {command : Command}

/-- One command is answered when its reply comes in time, is no error, and can be read. -/
theorem single_eq_ok_iff {α : Type} {read? : Reply → Option α} {a : α} {next : Link} :
    single command read? limit now link = (.ok a, t, next) ↔
      ∃ r rest, Link.InTime (now + limit) link.acts now [r] t rest ∧ r.isError = false ∧
        read? r = some a ∧ next = { link with acts := rest, sent := command :: link.sent } := by
  constructor
  · intro h
    rw [single] at h
    split at h
    · rename_i r t' link' heard
      split at h
      · cases h
      · rename_i proper
        split at h
        · rename_i b reads
          cases h
          have proper : r.isError = false := by simpa using proper
          obtain ⟨rest, told, same⟩ := (Link.ask_eq_reply_iff proper).1 heard
          exact ⟨r, rest, told, proper, reads, same⟩
        · cases h
    · cases h
  · rintro ⟨r, rest, told, proper, reads, rfl⟩
    have heard : link.ask (now + limit) command now =
        (.reply r, t, { link with acts := rest, sent := command :: link.sent }) :=
      (Link.ask_eq_reply_iff proper).2 ⟨rest, told, rfl⟩
    simp only [single, heard, proper, Bool.false_eq_true, if_false, reads]

/-! ## Transactions -/

/-- The replies to a transaction of so many commands: none of them is an error, and the last one is
an array, or nil. -/
def ReadsTransaction (commands : Nat) (replies : List Reply) : Prop :=
  replies.length = commands + 2 ∧ Reply.anyError replies = false ∧
    ((∃ items, replies.getLast? = some (.array items)) ∨ replies.getLast? = some .nil)

/-- A transaction is done when each of its replies comes in time and tells so. -/
theorem transaction_eq_ok_iff {commands : List Command} :
    (transaction commands limit now link).1 = .ok () ↔
      ∃ replies t rest, Link.InTime (now + limit) link.acts now replies t rest ∧
        ReadsTransaction commands.length replies := by
  constructor
  · intro h
    rw [transaction] at h
    split at h
    · rename_i replies t link' heard
      split at h
      · cases h
      · rename_i proper
        have proper : Reply.anyError replies = false := by simpa using proper
        obtain ⟨rest, told, length, -⟩ := (Link.hearAll_eq_ok_iff proper).1 heard
        refine ⟨replies, t, rest, told, by simpa using length, proper, ?_⟩
        split at h
        · rename_i items last
          exact Or.inl ⟨items, last⟩
        · rename_i last
          exact Or.inr last
        · cases h
    · cases h
  · rintro ⟨replies, t, rest, told, length, proper, last⟩
    have all : replies.length = (["MULTI"] :: commands ++ [["EXEC"]]).length := by
      simpa using length
    rw [transaction, (Link.hearAll_eq_ok_iff proper).2 ⟨rest, told, all, rfl⟩]
    rcases last with ⟨items, last⟩ | last
    · simp only [proper, last, Bool.false_eq_true, if_false]
    · simp only [proper, last, Bool.false_eq_true, if_false]

/-! ## Scans -/

/-- The replies to a scan that has removed `removed` keys so far: pages, and a count of deleted keys
after each page that is not empty, up to the page with cursor zero. -/
inductive ReadsPages : Nat → List Reply → Nat → Prop
  | lastEmpty {removed : Nat} {page : Reply} (proper : page.isError = false)
      (reads : page.page? = some (0, [])) : ReadsPages removed [page] removed
  | empty {removed next total : Nat} {page : Reply} {rest : List Reply}
      (proper : page.isError = false) (reads : page.page? = some (next, [])) (goesOn : next ≠ 0)
      (others : ReadsPages removed rest total) : ReadsPages removed (page :: rest) total
  | last {removed n : Nat} {page deleted : Reply} {keys : List String}
      (proper : page.isError = false) (reads : page.page? = some (0, keys)) (some_ : keys ≠ [])
      (deletes : deleted.isError = false) (count : deleted.count? = some n) :
      ReadsPages removed [page, deleted] (removed + n)
  | page {removed next n total : Nat} {page deleted : Reply} {keys : List String}
      {rest : List Reply} (proper : page.isError = false) (reads : page.page? = some (next, keys))
      (goesOn : next ≠ 0) (some_ : keys ≠ []) (deletes : deleted.isError = false)
      (count : deleted.count? = some n) (others : ReadsPages (removed + n) rest total) :
      ReadsPages removed (page :: deleted :: rest) total

/-- A reply that is read as a page, or as a count, is no error. -/
theorem proper_of_reads {α : Type} {r : Reply} {a : α} {read? : Option α}
    (h : (if _ : r.isError then none else read?) = some a) :
    r.isError = false ∧ read? = some a := by
  split at h
  · cases h
  · rename_i proper
    exact ⟨by simpa using proper, h⟩

/-- A deletion that gives a number has read pages up to the last. -/
theorem scan_of_eq_ok {pattern : String} {cursor removed total : Nat}
    (h : (scanAndDelete pattern limit deadline cursor removed now link).1 = .ok total) :
    ∃ replies t rest, Link.InTime deadline link.acts now replies t rest ∧
      ReadsPages removed replies total := by
  fun_induction scanAndDelete pattern limit deadline cursor removed now link with
  | case1 | case2 | case5 | case8 | case9 => cases h
  | case3 _ _ _ _ _ _ _ page _ _ asked keys none reads =>
    cases h
    obtain ⟨proper, reads⟩ := proper_of_reads reads
    obtain ⟨rest, told, -⟩ := (Link.ask_eq_reply_iff proper).1 asked
    rw [List.isEmpty_iff.1 none] at reads
    exact ⟨_, _, rest, told, .lastEmpty proper reads⟩
  | case4 _ _ _ _ _ _ _ page _ _ asked next keys reads none goesOn ih =>
    obtain ⟨proper, reads⟩ := proper_of_reads reads
    obtain ⟨middle, told, rfl⟩ := (Link.ask_eq_reply_iff proper).1 asked
    obtain ⟨replies, t, rest, told', pages⟩ := ih h
    rw [List.isEmpty_iff.1 none] at reads
    exact ⟨_, t, rest, told.append told', .empty proper reads goesOn pages⟩
  | case6 _ _ _ _ _ _ _ page _ _ asked keys some_ deleted _ _ askedDelete n counts reads =>
    cases h
    obtain ⟨proper, reads⟩ := proper_of_reads reads
    obtain ⟨deletes, counts⟩ := proper_of_reads counts
    obtain ⟨middle, told, rfl⟩ := (Link.ask_eq_reply_iff proper).1 asked
    obtain ⟨rest, told', -⟩ := (Link.ask_eq_reply_iff deletes).1 askedDelete
    exact ⟨_, _, rest, told.append told', .last proper reads (by simpa using some_) deletes counts⟩
  | case7 _ _ _ _ _ _ _ page _ _ asked next keys reads some_ deleted _ _ askedDelete n counts
      goesOn ih =>
    obtain ⟨proper, reads⟩ := proper_of_reads reads
    obtain ⟨deletes, counts⟩ := proper_of_reads counts
    obtain ⟨middle, told, rfl⟩ := (Link.ask_eq_reply_iff proper).1 asked
    obtain ⟨middle', told', rfl⟩ := (Link.ask_eq_reply_iff deletes).1 askedDelete
    obtain ⟨replies, t, rest, told'', pages⟩ := ih h
    exact ⟨_, t, rest, (told.append told').append told'',
      .page proper reads goesOn (by simpa using some_) deletes counts pages⟩

/-- One page that is heard in time. -/
theorem scan_page {pattern : String} {cursor removed next t : Nat} {page : Reply}
    {keys : List String} {rest : List Act}
    (told : Link.InTime deadline link.acts now [page] t rest) (proper : page.isError = false)
    (reads : page.page? = some (next, keys)) :
    scanAndDelete pattern limit deadline cursor removed now link =
      let paged : Link :=
        { link with acts := rest, sent := scanCommand pattern cursor :: link.sent }
      if keys.isEmpty then
        if next = 0 then (.ok removed, t, paged)
        else scanAndDelete pattern limit deadline next removed t paged
      else
        match paged.ask deadline ("DEL" :: keys) t with
        | (.reply r, now, link) =>
          match if r.isError then none else r.count? with
          | none => (.error .remote, now, link)
          | some n =>
            if next = 0 then (.ok (removed + n), now, link)
            else scanAndDelete pattern limit deadline next (removed + n) now link
        | (heard, now, link) => (.error (notHeard limit heard), now, link) := by
  have asked : link.ask deadline (scanCommand pattern cursor) now =
      (.reply page, t,
        { link with acts := rest, sent := scanCommand pattern cursor :: link.sent }) :=
    (Link.ask_eq_reply_iff proper).2 ⟨rest, told, rfl⟩
  rw [scanAndDelete]
  -- The walk looks whether there is an act at all before it asks; here there is one.
  split
  · rename_i none
    rw [none] at told
    cases told
  · split
    · rename_i heard
      rw [asked] at heard
      cases heard
      simp only [proper, reads, Bool.false_eq_true, if_false]
      split
      · rfl
      · split
        · rename_i heard
          exact heard ▸ rfl
        · rename_i heard
          simp only [heard]
    · rename_i other heard
      rw [asked] at heard
      cases heard
      exact absurd rfl (other _)

/-- A deletion that reads pages up to the last gives their sum. -/
theorem scan_eq_ok_of {pattern : String} {cursor removed total t : Nat} {replies : List Reply}
    {rest : List Act} (told : Link.InTime deadline link.acts now replies t rest)
    (reads : ReadsPages removed replies total) :
    (scanAndDelete pattern limit deadline cursor removed now link).1 = .ok total := by
  induction reads generalizing cursor now link with
  | lastEmpty proper reads =>
    rw [scan_page told proper reads]
    rfl
  | empty proper reads goesOn others ih =>
    obtain ⟨middle, t', first, told⟩ := told.uncons
    rw [scan_page first proper reads]
    simp only [List.isEmpty_nil, if_true, goesOn, if_false]
    exact ih told
  | last proper reads some_ deletes count =>
    obtain ⟨middle, t', first, told⟩ := told.uncons
    rw [scan_page first proper reads]
    simp only [List.isEmpty_iff, some_, if_false, if_true]
    rw [(Link.ask_eq_reply_iff deletes).2 ⟨rest, told, rfl⟩]
    simp only [deletes, count, Bool.false_eq_true, if_false]
  | page proper reads goesOn some_ deletes count others ih =>
    obtain ⟨middle, t', first, told⟩ := told.uncons
    obtain ⟨middle', t'', second, told⟩ := told.uncons
    rw [scan_page first proper reads]
    simp only [List.isEmpty_iff, some_, if_false]
    rw [(Link.ask_eq_reply_iff deletes).2 ⟨middle', second, rfl⟩]
    simp only [deletes, count, goesOn, Bool.false_eq_true, if_false]
    exact ih told

/-! ## All requests -/

/-- One reply, which is no error and which the reader takes. -/
def ReadsOne {α : Type} (read? : Reply → Option α) (replies : List Reply) (a : α) : Prop :=
  ∃ r, replies = [r] ∧ r.isError = false ∧ read? r = some a

/-- What the replies to a request have to be for it to succeed. -/
def Reads : (r : Request) → List Reply → Raw r → Prop
  | .get _, replies, raw => ReadsOne Reply.optionalText? replies raw
  | .set .., replies, raw => ReadsOne (fun _ => some ()) replies raw
  | .delete _, replies, raw => ReadsOne Reply.count? replies raw
  | .deletePattern _, replies, raw => ReadsPages 0 replies raw
  | .has _, replies, raw => ReadsOne Reply.signed? replies raw
  | .ttl _, replies, raw => ReadsOne Reply.signed? replies raw
  | .getMany _, replies, raw => ReadsOne (Reply.list? Reply.optionalText?) replies raw
  | .setMany entries _, replies, _ => ReadsTransaction entries.length replies
  | .increment _, replies, raw => ReadsOne Reply.signed? replies raw
  | .decrement _, replies, raw => ReadsOne Reply.signed? replies raw
  | .expire .., replies, raw => ReadsOne Reply.signed? replies raw
  | .addMembers .., replies, raw => ReadsOne Reply.count? replies raw
  | .members _, replies, raw => ReadsOne (Reply.list? Reply.text?) replies raw
  | .removeMembers .., replies, raw => ReadsOne Reply.count? replies raw

theorem single_reads_iff {α : Type} {read? : Reply → Option α} {a : α} :
    (single command read? limit now link).1 = .ok a ↔
      ∃ replies t rest, Link.InTime (now + limit) link.acts now replies t rest ∧
        ReadsOne read? replies a := by
  constructor
  · intro h
    obtain ⟨r, rest, told, proper, reads, -⟩ := single_eq_ok_iff.1 (Prod.ext h rfl)
    exact ⟨[r], _, rest, told, r, rfl, proper, reads⟩
  · rintro ⟨replies, t, rest, told, r, rfl, proper, reads⟩
    rw [single_eq_ok_iff.2 ⟨r, rest, told, proper, reads, rfl⟩]

/-- A request succeeds on the wire exactly if its replies come in time and can be read. -/
theorem talk_eq_ok_iff {r : Request} {raw : Raw r} :
    (talk r limit now link).1 = .ok raw ↔
      ∃ replies t rest, Link.InTime (now + limit) link.acts now replies t rest ∧
        Reads r replies raw := by
  cases r with
  | deletePattern pattern =>
    constructor
    · exact scan_of_eq_ok
    · rintro ⟨replies, t, rest, told, reads⟩
      exact scan_eq_ok_of told reads
  | setMany entries ttl =>
    let commands := entries.map fun e => storeCommand e.1 e.2 ttl
    have whole : (transaction commands limit now link).1 = .ok () ↔ _ := transaction_eq_ok_iff
    rw [List.length_map] at whole
    exact whole
  | _ => exact single_reads_iff

/-! ### Failures -/

theorem notHeard_cases (limit : Nat) (heard : Heard) :
    notHeard limit heard = .remote ∨ notHeard limit heard = .timeout (.ofMillis limit) := by
  cases heard with
  | late => exact Or.inr rfl
  | reply | dropped => exact Or.inl rfl

/-- One command fails with a fault of the remote store, or for lack of time. -/
theorem single_failure {α : Type} {read? : Reply → Option α} {f : Fault}
    (h : (single command read? limit now link).1 = .error f) :
    f = .remote ∨ f = .timeout (.ofMillis limit) := by
  rw [single] at h
  split at h
  · split at h
    · cases h
      exact Or.inl rfl
    · split at h <;> cases h
      exact Or.inl rfl
  · rename_i heard _ _ _ _
    cases h
    exact notHeard_cases limit heard

theorem transaction_failure {commands : List Command} {f : Fault}
    (h : (transaction commands limit now link).1 = .error f) :
    f = .remote ∨ f = .timeout (.ofMillis limit) := by
  rw [transaction] at h
  split at h
  · split at h
    · cases h
      exact Or.inl rfl
    · split at h <;> cases h
      exact Or.inl rfl
  · rename_i heard _ _ _
    cases h
    exact notHeard_cases limit heard

/-- A deletion by pages fails with a fault of the remote store, or for lack of time. -/
theorem scan_failure {pattern : String} {cursor removed : Nat} {f : Fault}
    (h : (scanAndDelete pattern limit deadline cursor removed now link).1 = .error f) :
    f = .remote ∨ f = .timeout (.ofMillis limit) := by
  fun_induction scanAndDelete pattern limit deadline cursor removed now link with
  | case1 | case2 | case5 =>
    cases h
    exact Or.inl rfl
  | case3 | case6 => cases h
  | case4 _ _ _ _ _ _ _ _ _ _ _ _ _ _ _ _ ih => exact ih h
  | case7 _ _ _ _ _ _ _ _ _ _ _ _ _ _ _ _ _ _ _ _ _ _ ih => exact ih h
  | case8 | case9 =>
    cases h
    exact notHeard_cases limit _

/-- A request that fails on the wire fails with an error of the remote side, or at its deadline. -/
theorem talk_failure {r : Request} {f : Fault} (h : (talk r limit now link).1 = .error f) :
    f = .remote ∨ f = .timeout (.ofMillis limit) := by
  cases r with
  | deletePattern pattern => exact scan_failure h
  | setMany entries ttl => exact transaction_failure h
  | _ => exact single_failure h

end Remote

end GrantCache
