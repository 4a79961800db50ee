import GrantCache.Proofs.Json.RoundTrip
import GrantCache.Proofs.Remote.Pages
import GrantCache.Proofs.Removal
import Mathlib.Data.List.Forall2

/-!
# Stored values come back

A value is sent to the remote store as JSON text, which is the last text of the command that stores
it. A server that keeps this text returns it as the reply to a read, or in one place of the reply to
a read of several keys (`Remote.payload`), and there the value is read back. So a stored null is
something that was found.

That reading undoes writing is a fact about JSON text (`Json.parse?_compact`); what remains is which
commands are sent, whatever the server does, and which answer a reply comes to.
-/

namespace GrantCache

/-- Values that can be stored as text: whole numbers of a 64-bit range only, and not too many levels
of containers. -/
def Json.Storable (v : Json) : Prop := v.Whole ∧ v.depth < 128

namespace Remote

variable {scene : Scene} {v : Json} {slot : Option Json} {item : Reply} {r : Request}
  {replies : List Reply} {t : Nat} {rest : List Act}

/-- A connected store whose circuit admits the next command. -/
def Scene.Serving (scene : Scene) : Prop :=
  scene.enter.1 = true ∧ scene.remote.link.listening = true

/-- The commands that store several values. -/
def storeCommands (entries : List (String × Json)) (ttl : Option Nat) : List Command :=
  ["MULTI"] :: entries.map (fun e => storeCommand e.1 e.2 ttl) ++ [["EXEC"]]

/-- What a server returns for a key: what was stored there, if anything was. -/
def payload : Option Json → Reply
  | none => .nil
  | some v => .bulk v.compact

/-! ## Texts -/

theorem getLast?_storeCommand (key : String) (v : Json) (ttl : Option Nat) :
    (storeCommand key v ttl).getLast? = some v.compact := by
  unfold storeCommand
  split <;> rfl

theorem decode_compact (h : v.Storable) : decode (some v.compact) = .ok (some v) := by
  rw [decode, Json.parse?_compact h.1 h.2]

/-- What one item of the reply to a read of several keys is read as. -/
def ReadsAs (item : Reply) (slot : Option Json) : Prop :=
  ∃ text, item.optionalText? = some text ∧ decode text = .ok slot

theorem readsAs_payload (h : ∀ v ∈ slot, v.Storable) : ReadsAs (payload slot) slot := by
  cases slot with
  | none => exact ⟨none, rfl, rfl⟩
  | some v => exact ⟨some v.compact, rfl, decode_compact (h v rfl)⟩

/-- Text that was stored is read as nothing else than the value. -/
theorem eq_of_readsAs (h : v.Storable) (reads : ReadsAs (.bulk v.compact) slot) :
    slot = some v := by
  obtain ⟨text, ⟨⟩, read⟩ := reads
  exact Except.ok.inj (read.symm.trans (decode_compact h))

theorem isError_of_readsAs (h : ReadsAs item slot) : item.isError = false := by
  obtain ⟨text, heard, -⟩ := h
  cases item with
  | error | array => cases heard
  | _ => rfl

theorem mapM_cons_eq_some {α β : Type} {f : α → Option β} {a : α} {as : List α} {bs : List β}
    (h : (a :: as).mapM f = some bs) :
    ∃ b others, f a = some b ∧ as.mapM f = some others ∧ bs = b :: others := by
  rw [List.mapM_cons] at h
  obtain ⟨b, first, h⟩ := Option.bind_eq_some_iff.1 h
  obtain ⟨others, rest, h⟩ := Option.bind_eq_some_iff.1 h
  exact ⟨b, others, first, rest, (Option.some.inj h).symm⟩

theorem mapM_cons_eq_ok {ε α β : Type} {f : α → Except ε β} {a : α} {as : List α} {bs : List β}
    (h : (a :: as).mapM f = .ok bs) :
    ∃ b others, f a = .ok b ∧ as.mapM f = .ok others ∧ bs = b :: others := by
  rw [List.mapM_cons] at h
  cases first : f a with
  | error e =>
    rw [first] at h
    cases h
  | ok b =>
    cases rest : as.mapM f with
    | error e =>
      rw [first, rest] at h
      cases h
    | ok others =>
      rw [first, rest] at h
      exact ⟨b, others, rfl, rfl, (Except.ok.inj h).symm⟩

/-- Several items are read each at its place, or none of them is. -/
theorem readsAs_all_iff {items : List Reply} {slots : List (Option Json)} :
    List.Forall₂ ReadsAs items slots ↔
      ∃ texts, items.mapM Reply.optionalText? = some texts ∧ texts.mapM decode = .ok slots := by
  constructor
  · intro h
    induction h with
    | nil => exact ⟨[], rfl, rfl⟩
    | cons first _ ih =>
      obtain ⟨text, heard, read⟩ := first
      obtain ⟨texts, heardAll, readAll⟩ := ih
      refine ⟨text :: texts, ?_, ?_⟩
      · rw [List.mapM_cons, heard, heardAll]
        rfl
      · rw [List.mapM_cons, read, readAll]
        rfl
  · rintro ⟨texts, heard, read⟩
    induction items generalizing texts slots with
    | nil =>
      cases heard
      cases read
      exact .nil
    | cons item rest ih =>
      obtain ⟨text, others, ownText, heardRest, rfl⟩ := mapM_cons_eq_some heard
      obtain ⟨slot, slots, ownSlot, readRest, rfl⟩ := mapM_cons_eq_ok read
      exact .cons ⟨text, ownText, ownSlot⟩ (ih others heardRest readRest)

theorem anyError_of_readsAs {items : List Reply} {slots : List (Option Json)}
    (h : List.Forall₂ ReadsAs items slots) : Reply.anyError items = false := by
  induction h with
  | nil => rfl
  | cons first _ ih => rw [Reply.anyError, isError_of_readsAs first, ih, Bool.or_false]

/-! ## What is sent -/

/-- Of a pipeline the first commands are sent, and all of them if all replies are heard. -/
theorem sent_hearAll (deadline : Nat) (commands : List Command) (now : Nat) (link : Link) :
    ∃ n, (link.hearAll deadline commands now).2.2.sent = (commands.take n).reverse ++ link.sent ∧
      ∀ replies, (link.hearAll deadline commands now).1 = .ok replies → commands.length ≤ n := by
  induction commands generalizing now link with
  | nil => exact ⟨0, rfl, fun _ _ => Nat.le_refl 0⟩
  | cons command rest ih =>
    rw [Link.hearAll]
    rcases asked : link.ask deadline command now with ⟨heard, t, next⟩
    have sent : command :: link.sent = next.sent := congrArg (fun x => x.2.2.sent) asked
    cases heard with
    | reply r =>
      obtain ⟨n, others, all⟩ := ih t next
      refine ⟨n + 1, ?_⟩
      simp only
      rcases he : next.hearAll deadline rest t with ⟨_ | _, t', last⟩
      · rw [he] at others
        exact ⟨by simpa [← sent] using others, fun _ none => by cases none⟩
      · rw [he] at others all
        exact ⟨by simpa [← sent] using others, fun _ _ => Nat.succ_le_succ (all _ rfl)⟩
    | dropped => exact ⟨1, by simp [← sent], fun _ none => by cases none⟩
    | late => exact ⟨rest.length + 1, by simp [← sent], fun _ none => by cases none⟩

theorem sent_transaction (commands : List Command) (limit now : Nat) (link : Link) :
    ∃ n, (transaction commands limit now link).2.2.sent =
        ((["MULTI"] :: commands ++ [["EXEC"]]).take n).reverse ++ link.sent ∧
      ((transaction commands limit now link).1 = .ok () →
        (["MULTI"] :: commands ++ [["EXEC"]]).length ≤ n) := by
  obtain ⟨n, sent, all⟩ :=
    sent_hearAll (now + limit) (["MULTI"] :: commands ++ [["EXEC"]]) now link
  refine ⟨n, ?_⟩
  rw [transaction]
  rcases he : link.hearAll (now + limit) (["MULTI"] :: commands ++ [["EXEC"]]) now with
    ⟨heard | replies, t, last⟩
  · rw [he] at sent
    exact ⟨sent, fun none => by cases none⟩
  · rw [he] at sent all
    simp only
    split
    · exact ⟨sent, fun none => by cases none⟩
    · split
      · exact ⟨sent, fun _ => all replies rfl⟩
      · exact ⟨sent, fun _ => all replies rfl⟩
      · exact ⟨sent, fun none => by cases none⟩

/-! ## Requests -/

theorem link_serve (serving : scene.Serving) (something : isVacuous r = false) :
    (serve scene r).state.remote.link =
      (talk r (scene.remote.allowance r) scene.now scene.remote.link).2.2 := by
  rw [(serve_of_sent scene something).1]
  exact (call_of_listening r serving.1 serving.2).2

theorem serve_of_heard {raw : Raw r} {answer : r.Answer} (serving : scene.Serving)
    (something : isVacuous r = false)
    (told : Link.InTime (scene.now + scene.remote.allowance r) scene.remote.link.acts scene.now
      replies t rest)
    (reads : Reads r replies raw) (read : (interpret r raw).1 = .ok answer) :
    (serve scene r).response = .ok answer ∧ (interpret r raw).2 <:+ (serve scene r).events := by
  have heard : (call r scene).1 = .ok raw :=
    (call_of_listening r serving.1 serving.2).1.trans
      (talk_eq_ok_iff.2 ⟨replies, t, rest, told, reads⟩)
  have sent : vacuous? r = none := by
    rw [vacuous?_eq, something]
    rfl
  rcases he : call r scene with ⟨result, after, events⟩
  rcases hi : interpret r raw with ⟨outcome, counts⟩
  rw [he] at heard
  rw [hi] at read
  cases heard
  cases read
  have served : serve scene r = ⟨.ok answer, after, events ++ counts⟩ := by
    rw [serve, sent]
    simp only [he, hi]
  rw [served]
  exact ⟨rfl, List.suffix_append events counts⟩

/-- A transaction that is answered was sent as a whole. -/
theorem sent_setMany {entries : List (String × Json)} {ttl : Option Nat} (serving : scene.Serving)
    (some_ : entries ≠ []) :
    let served := serve scene (.setMany entries ttl)
    (∃ n, served.state.remote.link.sent =
        ((storeCommands entries ttl).take n).reverse ++ scene.remote.link.sent) ∧
      (served.response = .ok () → served.state.remote.link.sent =
        (storeCommands entries ttl).reverse ++ scene.remote.link.sent) := by
  intro served
  let r : Request := .setMany entries ttl
  have something : isVacuous r = false := by simpa [r, isVacuous] using some_
  obtain ⟨n, sent, all⟩ := sent_transaction (entries.map fun e => storeCommand e.1 e.2 ttl)
    (scene.remote.allowance r) scene.now scene.remote.link
  have sent : served.state.remote.link.sent =
      ((storeCommands entries ttl).take n).reverse ++ scene.remote.link.sent := by
    rw [link_serve serving something]
    exact sent
  refine ⟨⟨n, sent⟩, fun answered => ?_⟩
  -- An answer means that each command was replied to, so each was sent.
  have whole : (storeCommands entries ttl).length ≤ n := by
    refine all ?_
    obtain ⟨-, -, failed⟩ := serve_of_sent scene something
    have result := (call_of_listening r serving.1 serving.2).1
    cases hc : (call r scene).1 with
    | error f => cases (failed f hc).symm.trans answered
    | ok raw => exact result.symm.trans hc
  rw [sent, List.take_of_length_le whole]

theorem inTime_unique {deadline now t' : Nat} {acts rest' : List Act} {r r' : Reply}
    (h : Link.InTime deadline acts now [r] t rest)
    (h' : Link.InTime deadline acts now [r'] t' rest') : r = r' := by
  cases h with
  | next first _ =>
    cases h' with
    | next first' _ =>
      have same := (Act.await_eq_reply_iff.2 first).symm.trans (Act.await_eq_reply_iff.2 first')
      exact Heard.reply.inj (Prod.mk.inj same).2

/-- A slot is found exactly if there was text for it. -/
theorem isSome_of_decode {texts : List (Option String)} {slots : List (Option Json)}
    (h : texts.mapM decode = .ok slots) : texts.map (·.isSome) = slots.map (·.isSome) := by
  induction texts generalizing slots with
  | nil =>
    cases h
    rfl
  | cons text rest ih =>
    obtain ⟨slot, others, read, readRest, rfl⟩ := mapM_cons_eq_ok h
    have first : text.isSome = slot.isSome := by
      cases text with
      | none =>
        cases read
        rfl
      | some text =>
        rw [decode] at read
        split at read <;> cases read
        rfl
    rw [List.map_cons, List.map_cons, first, ih readRest]

/-- A reply to a read of several keys is the answer place by place, if all its items are read. -/
theorem getMany_eq_ok_iff {keys : List String} {items : List Reply} {slots : List (Option Json)}
    (serving : scene.Serving) (some_ : keys ≠ [])
    (told : Link.InTime (scene.now + scene.remote.commandTimeout) scene.remote.link.acts scene.now
      [.array items] t rest) :
    (serve scene (.getMany keys)).response = .ok slots ↔ List.Forall₂ ReadsAs items slots := by
  let r : Request := .getMany keys
  have something : isVacuous r = false := by simpa [r, isVacuous] using some_
  rw [readsAs_all_iff]
  constructor
  -- The reply that was heard can be no other than `items`.
  · intro answered
    obtain ⟨-, read, failed⟩ := serve_of_sent scene something
    cases hc : (call r scene).1 with
    | error f => cases (failed f hc).symm.trans answered
    | ok texts =>
      have heard := (call_of_listening r serving.1 serving.2).1.symm.trans hc
      obtain ⟨_, _, _, told', item, rfl, _, reads⟩ := talk_eq_ok_iff.1 heard
      obtain rfl := inTime_unique told told'
      refine ⟨texts, reads, ?_⟩
      rcases read texts hc with ⟨answer, whole, response⟩ | ⟨-, response⟩
      · cases response.symm.trans answered
        exact whole
      · cases response.symm.trans answered
  · rintro ⟨texts, reads, whole⟩
    have proper : (Reply.array items).isError = false :=
      anyError_of_readsAs (readsAs_all_iff.2 ⟨texts, reads, whole⟩)
    exact (serve_of_heard (r := r) serving something told ⟨_, rfl, proper, reads⟩ whole).1

/-- Each place of such an answer is counted, as found or as not found. -/
theorem getMany_counts {keys : List String} {items : List Reply} {slots : List (Option Json)}
    (serving : scene.Serving) (some_ : keys ≠ [])
    (told : Link.InTime (scene.now + scene.remote.commandTimeout) scene.remote.link.acts scene.now
      [.array items] t rest)
    (reads : List.Forall₂ ReadsAs items slots) :
    (slots.map fun slot => .count (.reads .remote "mget" slot.isSome) 1) <:+
      (serve scene (.getMany keys)).events := by
  let r : Request := .getMany keys
  have something : isVacuous r = false := by simpa [r, isVacuous] using some_
  obtain ⟨texts, heard, whole⟩ := readsAs_all_iff.1 reads
  have proper : (Reply.array items).isError = false := anyError_of_readsAs reads
  have counts := (serve_of_heard (r := r) serving something told ⟨_, rfl, proper, heard⟩ whole).2
  have same := congrArg (List.map fun found => Event.count (.reads .remote "mget" found) 1)
    (isSome_of_decode whole)
  rw [List.map_map, List.map_map] at same
  rw [show (interpret r texts).2 = _ from same] at counts
  exact counts

theorem slot_of_readsAs {items : List Reply} {slots : List (Option Json)} {i : Nat}
    (h : List.Forall₂ ReadsAs items slots) (at_ : items[i]? = some item) :
    ∃ slot, slots[i]? = some slot ∧ ReadsAs item slot := by
  induction h generalizing i with
  | nil => cases at_
  | @cons first slot _ _ reads _ ih =>
    cases i with
    | zero =>
      cases at_
      exact ⟨slot, rfl, reads⟩
    | succ i => exact ih at_

theorem readsAs_payloads {slots : List (Option Json)} (h : ∀ v, some v ∈ slots → v.Storable) :
    List.Forall₂ ReadsAs (slots.map payload) slots := by
  induction slots with
  | nil => exact .nil
  | cons slot rest ih =>
    have first : ∀ v ∈ slot, v.Storable := by
      rintro v rfl
      exact h v (List.mem_cons_self ..)
    exact .cons (readsAs_payload first) (ih fun v mem => h v (List.mem_cons_of_mem _ mem))

/-! ## There and back -/

/-- A value whose numbers are whole and whose containers are not too many levels deep comes back
from the remote store as it was stored there, at all instants and whatever happened before. To store
it alone, or with others in a transaction, means to send a command that ends with its text. A server
that returns this text as the reply to a read makes the read answer the value, which counts as
found, also if it is null. In the reply to a read of several keys it makes the place of the text
hold the value, if there is an answer at all, and there is one if at all other places there is
nothing or a value that was stored too. -/
theorem values_come_back {v : Json} (storable : v.Storable) {scene : Scene}
    (serving : scene.Serving) :
    let link := scene.remote.link
    let deadline := scene.now + scene.remote.commandTimeout
    (∀ key ttl, (storeCommand key v ttl).getLast? = some v.compact) ∧
    (∀ key ttl, (serve scene (.set key v ttl)).state.remote.link.sent =
      storeCommand key v ttl :: link.sent) ∧
    (∀ entries ttl, entries ≠ [] →
      let served := serve scene (.setMany entries ttl)
      (∃ n, served.state.remote.link.sent =
        ((storeCommands entries ttl).take n).reverse ++ link.sent) ∧
      (served.response = .ok () →
        served.state.remote.link.sent = (storeCommands entries ttl).reverse ++ link.sent)) ∧
    (∀ key t rest, Link.InTime deadline link.acts scene.now [.bulk v.compact] t rest →
      (serve scene (.get key)).response = .ok (some v) ∧
        [.count (.reads .remote "get" true) 1] <:+ (serve scene (.get key)).events) ∧
    (∀ (keys : List String) (items : List Reply) t rest, keys ≠ [] →
      Link.InTime deadline link.acts scene.now [.array items] t rest →
        let served := serve scene (.getMany keys)
        (∀ slots, served.response = .ok slots →
          (slots.map fun slot => .count (.reads .remote "mget" slot.isSome) 1) <:+ served.events ∧
          ∀ i : Nat, items[i]? = some (Reply.bulk v.compact) → slots[i]? = some (some v)) ∧
        ∀ slots, (∀ w, some w ∈ slots → w.Storable) → items = slots.map payload →
          served.response = .ok slots) := by
  intro link deadline
  refine ⟨fun key ttl => getLast?_storeCommand key v ttl, fun key ttl => ?_,
    fun entries ttl some_ => sent_setMany serving some_, fun key t rest told => ?_,
    fun keys items t rest some_ told => ⟨fun slots answered => ?_, ?_⟩⟩
  · rw [link_serve serving rfl]
    exact sent_single ..
  · exact serve_of_heard (r := .get key) serving rfl told ⟨_, rfl, rfl, rfl⟩
      (decode_compact storable)
  · have reads := (getMany_eq_ok_iff serving some_ told).1 answered
    refine ⟨getMany_counts serving some_ told reads, fun i at_ => ?_⟩
    obtain ⟨slot, slotAt, readsSlot⟩ := slot_of_readsAs reads at_
    rw [slotAt, eq_of_readsAs storable readsSlot]
  · rintro slots all rfl
    exact (getMany_eq_ok_iff serving some_ told).2 (readsAs_payloads all)

/-- An object with a name that is escaped, the extremes of both ranges, a control character and
null. -/
theorem values_come_back_with_escapes :
    let v : Json := .obj [("\"\\", .arr [.int Json.minInteger, .int Json.maxUnsigned, .null]),
      ("n\x01ä", .obj [])]
    let scene : Scene := ⟨0, {}, { link := { acts := [.delay 5 (.reply (.bulk v.compact))] } }⟩
    v.Storable ∧ scene.Serving ∧ (serve scene (.get "key")).response = .ok (some v) := by
  intro v scene
  have whole : v.Whole := by
    refine .obj (List.pairwise_pair.2 (by decide)) ?_
    simp only [List.forall_mem_cons]
    refine ⟨.arr ?_, .obj .nil nofun, nofun⟩
    simp only [List.forall_mem_cons]
    exact ⟨.int (by decide), .int (by decide), .null, nofun⟩
  have storable : v.Storable := ⟨whole, by decide⟩
  have serving : scene.Serving := ⟨by decide +kernel, rfl⟩
  obtain ⟨-, -, -, get, -⟩ := values_come_back storable serving
  exact ⟨storable, serving, (get "key" 5 [] (.next (.delay (by decide) .reply) .none)).1⟩

end Remote

end GrantCache
