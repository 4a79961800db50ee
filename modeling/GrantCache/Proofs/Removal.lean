import GrantCache.Backend
import GrantCache.Proofs.Remote.Serving
import GrantCache.Proofs.Store.Requests

/-!
# What a removal comes to

A removal that a host answers was carried out by its store, which has said so (`Host.Executes`), or
the circuit of the remote store refused it (`Host.Refuses`). There is nothing else that an answer
can mean (`Host.executes_or_refuses`).
-/

namespace GrantCache

/-- A removal of a key, or of names from a set. -/
def Request.removes : Request → Bool
  | delete _ => true
  | removeMembers _ names => !names.isEmpty
  | _ => false

variable {r : Request} {now : Nat}

namespace Store

/-- What a removal takes away is not there. -/
def Lacks (now : Nat) (s : Store) : Request → Prop
  | .delete key => s.live? now key = none
  | .removeMembers key names => ∀ set deadline, s.live? now key = some ⟨.set set, deadline⟩ →
    ∀ name ∈ names, name ∉ set
  | _ => True

/-- A removal is carried out and answered. -/
def Removes (now : Nat) (s : Store) (r : Request) : Prop :=
  (∃ a, (s.serve now r).response = .ok a) ∧ (s.serve now r).state.Lacks now r

theorem lacks_delete (now : Nat) (key : String) (s : Store) :
    (s.delete now key).state.Lacks now (.delete key) := by
  show (s.delete now key).state.live? now key = none
  rw [live?_delete, if_pos rfl]

theorem lacks_removeMembers (now : Nat) (key : String) (names : List String) (s : Store) :
    (s.removeMembers now key names).state.Lacks now (.removeMembers key names) := by
  intro set deadline live name hn hs
  rw [live?_removeMembers, if_pos rfl] at live
  unfold lessMembers at live
  split at live
  · split at live
    · cases live
    · cases live
      -- the name is not among those that stay
      have stays := (List.mem_filter.1 hs).2
      rw [List.contains_iff_mem.2 hn] at stays
      cases stays
  · rename_i other
    exact other set deadline live

theorem removes_of_ok {s : Store} {a : r.Answer} (hr : r.removes = true)
    (h : (s.serve now r).response = .ok a) : s.Removes now r := by
  refine ⟨⟨a, h⟩, ?_⟩
  cases r with
  | delete key => exact lacks_delete now key s
  | removeMembers key names => exact lacks_removeMembers now key names s
  | _ => cases hr

end Store

namespace Remote

variable {scene : Scene} {command : Command}

/-- The command that a removal is sent as. -/
def removal? : Request → Option Command
  | .delete key => some ["DEL", key]
  | .removeMembers key names => some ("SREM" :: key :: names)
  | _ => none

theorem sent_single {α : Type} (command : Command) (read? : Reply → Option α) (limit now : Nat)
    (link : Link) : (single command read? limit now link).2.2.sent = command :: link.sent := by
  have sent : (link.ask (now + limit) command now).2.2.sent = command :: link.sent := rfl
  rw [single]
  split
  · rename_i asked
    rw [asked] at sent
    split
    · exact sent
    · split
      · exact sent
      · exact sent
  · rename_i asked
    rw [asked] at sent
    exact sent

theorem sent_talk (h : removal? r = some command) (limit now : Nat) (link : Link) :
    (talk r limit now link).2.2.sent = command :: link.sent := by
  cases r with
  | delete key =>
    obtain rfl := Option.some.inj h
    exact sent_single _ _ limit now link
  | removeMembers key names =>
    obtain rfl := Option.some.inj h
    exact sent_single _ _ limit now link
  | _ => cases h

theorem exists_removal? (hr : r.removes = true) :
    isVacuous r = false ∧ ∃ command, removal? r = some command := by
  cases r with
  | delete key => exact ⟨rfl, _, rfl⟩
  | removeMembers key names => exact ⟨by simpa [Request.removes, isVacuous] using hr, _, rfl⟩
  | _ => cases hr

/-- A removal that is admitted is sent, if there is a connection. -/
theorem sent_serve (hr : r.removes = true) (sends : removal? r = some command)
    (admitted : scene.enter.1 = true) (listening : scene.remote.link.listening = true) :
    (serve scene r).state.remote.link.sent = command :: scene.remote.link.sent := by
  have sent := sent_talk sends (scene.remote.limit r) scene.now scene.remote.link
  rw [(serve_of_sent scene (exists_removal? hr).1).1, call, enter_eq admitted]
  simp only [converse, listening, if_true]
  rcases he : talk r (scene.remote.limit r) scene.now scene.remote.link with ⟨_ | _, t, link⟩
  · rwa [he] at sent
  · rwa [he] at sent

end Remote

/-- The commands that have reached the server, the latest first. -/
def Backend.sent : Backend → List Command
  | remote r => r.link.sent
  | _ => []

namespace Host

variable {h : Host}

/-- The store carries a removal out and says so. The remote store is sent the command, and its reply
comes in time and is no error. -/
inductive Executes (h : Host) (r : Request) : Prop
  | bounded {s : Store} (backend : h.backend = .bounded s) (removes : s.Removes h.now r)
  | faulty {s : FaultyStore} (backend : h.backend = .faulty s)
    (works : ∀ key ∈ r.keys, key ∉ s.failing) (removes : s.store.Removes h.now r)
  | remote {remote : Remote} {command : Command} {raw : Remote.Raw r}
    (backend : h.backend = .remote remote) (sends : Remote.removal? r = some command)
    (sent : (h.serve r).state.backend.sent = command :: h.backend.sent)
    (answers : Remote.Answers ⟨h.now, h.breaker, remote⟩ r raw)

/-- The circuit of the remote store is open and has not rested: nothing is sent. -/
inductive Refuses (h : Host) (r : Request) : Prop
  | refused {remote : Remote} (backend : h.backend = .remote remote)
    (opened : (h.breaker.circuit "cache").phase = .opened)
    (unrested :
      (h.breaker.circuit "cache").rested (h.breaker.defaults.merge remote.overrides) h.now = false)
    (unsent : (h.serve r).state.backend = .remote remote)

theorem executes_or_refuses {a : r.Answer} (hr : r.removes = true)
    (ok : (h.serve r).response = .ok a) :
    h.Executes r ∨ h.Refuses r := by
  obtain ⟨now, breaker, backend⟩ := h
  cases backend with
  | bounded s => exact Or.inl (.bounded rfl (Store.removes_of_ok hr ok))
  | faulty s =>
    have served : (s.serve now r).response = .ok a := ok
    rw [FaultyStore.serve] at served
    split at served
    · cases served
    · rename_i works
      refine Or.inl (.faulty rfl (fun key hk failing => works ?_) (Store.removes_of_ok hr served))
      exact List.any_eq_true.2 ⟨key, hk, List.contains_iff_mem.2 failing⟩
  | remote remote =>
    let scene : Remote.Scene := ⟨now, breaker, remote⟩
    have served : (Remote.serve scene r).response = .ok a := ok
    obtain ⟨something, command, sends⟩ := Remote.exists_removal? hr
    -- The circuit refuses, or the request is sent and was answered, since it did not fail.
    cases he : scene.enter.1 with
    | false =>
      obtain ⟨-, same, -, -⟩ := Remote.serve_of_refused something he
      obtain ⟨opened, unrested⟩ := (Circuit.enter_eq_false_iff _ _ _ _).1 he
      exact Or.inr (.refused rfl opened unrested (congrArg Backend.remote same))
    | true =>
      obtain ⟨_, -, ⟨-, raw, answers, -⟩ | ⟨-, -, f, -, failed⟩⟩ :=
        Remote.serve_of_admitted something he
      · exact Or.inl (.remote rfl sends (Remote.sent_serve hr sends he answers.1) answers)
      · cases served.symm.trans failed

end Host

end GrantCache
