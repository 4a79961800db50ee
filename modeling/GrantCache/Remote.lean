import GrantCache.Circuit
import GrantCache.Json.Reader
import GrantCache.Json.Writer
import GrantCache.Request
import GrantCache.Wire

/-!
# The remote store

Requests become commands on the wire; values are stored as JSON text. Every command runs under the
circuit `cache` and a deadline. While the circuit refuses calls, nothing is sent and a degraded
answer stands in for the real one: a call is refused quietly, but a command that did run and failed
is reported to the caller, after the circuit has counted it. JSON text that cannot be read is no
failure of the remote side, so it is read after the circuit has counted a success.
-/

namespace GrantCache

/-- The way to the remote store, with the thresholds and the deadline for its commands. -/
structure Remote where
  link : Link
  overrides : Policy.Override := {}
  commandTimeout : Nat := 1000
deriving Inhabited

namespace Remote

/-- The circuit under which the remote store is called. -/
def circuitName : String := "cache"

def scanCount : Nat := 500

-- In milliseconds, as all limits here.
/-- Milliseconds for a deletion by pattern as a whole. -/
def bulkTimeout : Nat := 30000

/-! ### Talking to the server

A `Talk` is what goes over the wire for one request: its answer, and the instant and the link after
it. -/

/-- What goes over the wire, given the milliseconds it may take, the instant and the link. -/
abbrev Talk (α : Type) := Nat → Nat → Link → Except Fault α × Nat × Link

/-- The fault of an exchange without a reply. -/
def notHeard (limit : Nat) : Heard → Fault
  | .late => .timeout (.ofMillis limit)
  | _ => .remote

/-- One command whose reply is read by `read?`. -/
def single {α : Type} (command : Command) (read? : Reply → Option α) : Talk α :=
  fun limit now link =>
    match link.ask (now + limit) command now with
    | (.reply r, now, link) =>
      if r.isError then (.error .remote, now, link)
      else
        match read? r with
        | some a => (.ok a, now, link)
        | none => (.error .remote, now, link)
    | (heard, now, link) => (.error (notHeard limit heard), now, link)

/-- Commands that take effect together or not at all. The reply to the last one is an array, or nil
when the server gave the transaction up. -/
def transaction (commands : List Command) : Talk Unit :=
  fun limit now link =>
    match link.hearAll (now + limit) (["MULTI"] :: commands ++ [["EXEC"]]) now with
    | (.ok replies, now, link) =>
      if Reply.anyError replies then (.error .remote, now, link)
      else
        match replies.getLast? with
        | some (.array _) | some .nil => (.ok (), now, link)
        | _ => (.error .remote, now, link)
    | (.error heard, now, link) => (.error (notHeard limit heard), now, link)

def scanCommand (pattern : String) (cursor : Nat) : Command :=
  ["SCAN", Numeral.text cursor, "MATCH", pattern, "COUNT", Numeral.text scanCount]

-- The equations are used by `decreasing_by`, which the linter does not see.
set_option linter.unusedVariables false in
/-- Delete the keys of one page after another, until a page says with cursor zero that it is the
last. Each page takes an act of the server, so the server's list of acts bounds the pages. -/
def scanAndDelete (pattern : String) (limit deadline cursor removed now : Nat) (link : Link) :
    Except Fault Nat × Nat × Link :=
  match h : link.acts with
  | [] => (.error .remote, now, { link with sent := scanCommand pattern cursor :: link.sent })
  | _ :: _ =>
    match hp : link.ask deadline (scanCommand pattern cursor) now with
    | (.reply r, now, paged) =>
      match if r.isError then none else r.page? with
      | none => (.error .remote, now, paged)
      | some (next, keys) =>
        if keys.isEmpty then
          if next = 0 then (.ok removed, now, paged)
          else scanAndDelete pattern limit deadline next removed now paged
        else
          match hd : paged.ask deadline ("DEL" :: keys) now with
          | (.reply r, now, link) =>
            match if r.isError then none else r.count? with
            | none => (.error .remote, now, link)
            | some n =>
              if next = 0 then (.ok (removed + n), now, link)
              else scanAndDelete pattern limit deadline next (removed + n) now link
          | (heard, now, link) => (.error (notHeard limit heard), now, link)
    | (heard, now, link) => (.error (notHeard limit heard), now, link)
termination_by link.acts.length
decreasing_by
  · have paged_acts := congrArg (fun x => x.2.2.acts) hp
    simp only [Link.acts_ask, h, List.tail_cons] at paged_acts
    simp [h, ← paged_acts]
  · have paged_acts := congrArg (fun x => x.2.2.acts) hp
    have link_acts := congrArg (fun x => x.2.2.acts) hd
    simp only [Link.acts_ask, h, List.tail_cons] at paged_acts link_acts
    simp only [h, ← link_acts, ← paged_acts, List.length_tail, List.length_cons]
    omega

/-- Store a value, for good or for a time. -/
def storeCommand (key : String) (value : Json) : Option Nat → Command
  | none | some 0 => ["SET", key, value.compact]
  | some seconds => ["SETEX", key, Numeral.text seconds, value.compact]

/-- What a request is answered before stored texts are read as values. -/
abbrev Raw : Request → Type
  | .get _ => Option String
  | .getMany _ => List (Option String)
  | r => r.Answer

def talk : (r : Request) → Talk (Raw r)
  | .get key => single ["GET", key] Reply.optionalText?
  | .set key value ttl => single (storeCommand key value ttl) fun _ => some ()
  | .delete key => single ["DEL", key] Reply.count?
  | .deletePattern pattern => fun limit now link =>
    scanAndDelete pattern limit (now + limit) 0 0 now link
  | .has key => single ["EXISTS", key] Reply.signed?
  | .ttl key => single ["TTL", key] Reply.signed?
  | .getMany keys => single ("MGET" :: keys) (Reply.list? Reply.optionalText?)
  | .setMany entries ttl =>
    transaction (entries.map fun e => storeCommand e.1 e.2 ttl)
  | .increment key => single ["INCRBY", key, "1"] Reply.signed?
  | .decrement key => single ["DECRBY", key, "1"] Reply.signed?
  | .expire key seconds =>
    single ["EXPIRE", key, Numeral.text (min seconds (Nat.pow 2 63 - 1))] Reply.signed?
  | .addMembers key names => single ("SADD" :: key :: names) Reply.count?
  | .members key => single ["SMEMBERS", key] (Reply.list? Reply.text?)
  | .removeMembers key names => single ("SREM" :: key :: names) Reply.count?

/-- The answer that stands in while the circuit refuses calls. -/
def degraded : (r : Request) → Raw r
  | .get _ => none
  | .set .. | .setMany .. => ()
  | .delete _ | .deletePattern _ | .addMembers .. | .removeMembers .. => (0 : Nat)
  | .has _ | .increment _ | .decrement _ | .expire .. => (0 : Int)
  | .ttl _ => Request.ttlMissing
  | .getMany keys => keys.map fun _ => none
  | .members _ => []

def limit (r : Remote) : Request → Nat
  | .deletePattern _ => bulkTimeout
  | _ => r.commandTimeout

/-! ### Requests under the circuit -/

/-- The instant, the circuits and the way to the server: what a remote call works on. -/
structure Scene where
  now : Nat
  breaker : Breaker
  remote : Remote
deriving Inhabited

/-- Use the wire, if there is a connection. -/
def converse {α : Type} (limit : Nat) (talk : Talk α) (scene : Scene) :
    Except Fault α × Scene :=
  if scene.remote.link.listening then
    let (result, now, link) := talk limit scene.now scene.remote.link
    (result, { scene with now, remote := { scene.remote with link } })
  else (.error (.pool "connection refused"), scene)

/-- A request under the circuit of the remote store. -/
def call (r : Request) (scene : Scene) : Except Fault (Raw r) × Scene × List Event :=
  let policy := scene.breaker.defaults.merge scene.remote.overrides
  match scene.breaker.enter circuitName policy scene.now with
  | (false, breaker, events) =>
    -- A refused call is no failure for the caller.
    (.ok (degraded r), { scene with breaker },
      events ++ [.count (.degraded r.op) 1, .notice (.servingDegraded r.op)])
  | (true, breaker, events) =>
    match converse (scene.remote.limit r) (talk r) { scene with breaker } with
    | (.ok raw, scene) =>
      let (breaker, more) := scene.breaker.finish circuitName policy scene.now true
      (.ok raw, { scene with breaker }, events ++ more)
    | (.error f, scene) =>
      let (breaker, more) := scene.breaker.finish circuitName policy scene.now false
      (.error f, { scene with breaker }, events ++ more ++ [.notice (.commandFailed r.op f)])

/-- A stored text read as a value. -/
def decode : Option String → Except Fault (Option Json)
  | none => .ok none
  | some text =>
    match Json.parse? text with
    | some v => .ok (some v)
    | none => .error .serialization

/-- The answer that raw texts stand for, and the reads to be counted. -/
def interpret : (r : Request) → Raw r → Except Fault r.Answer × List Event
  -- Text that is there counts as a hit, even if it is no JSON.
  | .get _, raw => (decode raw, [.count (.reads .remote "get" raw.isSome) 1])
  | .getMany _, raw =>
    (raw.mapM decode, raw.map fun slot => .count (.reads .remote "mget" slot.isSome) 1)
  | .set .., raw => (.ok raw, [])
  | .delete _, raw => (.ok raw, [])
  | .deletePattern _, raw => (.ok raw, [])
  | .has _, raw => (.ok raw, [])
  | .ttl _, raw => (.ok raw, [])
  | .setMany .., raw => (.ok raw, [])
  | .increment _, raw => (.ok raw, [])
  | .decrement _, raw => (.ok raw, [])
  | .expire .., raw => (.ok raw, [])
  | .addMembers .., raw => (.ok raw, [])
  | .members _, raw => (.ok raw, [])
  | .removeMembers .., raw => (.ok raw, [])

/-- The answer to a request about nothing, which is not sent. -/
def vacuous? : (r : Request) → Option r.Answer
  | .getMany [] => some []
  | .setMany [] _ => some ()
  | .addMembers _ [] => some (0 : Nat)
  | .removeMembers _ [] => some (0 : Nat)
  | _ => none

def serve (scene : Scene) (r : Request) : Served Scene r.Answer :=
  match vacuous? r with
  | some answer => ⟨.ok answer, scene, []⟩
  | none =>
    match call r scene with
    | (.error f, scene, events) => ⟨.fault f, scene, events⟩
    | (.ok raw, scene, events) =>
      match interpret r raw with
      | (.ok answer, reads) => ⟨.ok answer, scene, events ++ reads⟩
      | (.error f, reads) => ⟨.fault f, scene, events ++ reads⟩

/-- Whether the remote side answers at all. Asking bypasses the circuit, so that it does not skew
the counts; while the circuit is open nobody is asked. -/
def isAvailable (scene : Scene) : Bool × Scene :=
  if (scene.breaker.circuit circuitName).phase = .opened then (false, scene)
  else
    let (result, scene) :=
      converse scene.remote.commandTimeout (single ["PING"] Reply.text?) scene
    (result.isOk, scene)

/-- Ask for a sign of life under the given deadline. -/
def probe (limit : Nat) (scene : Scene) : Except Fault Unit × Scene :=
  let (result, scene) := converse limit (single ["PING"] Reply.text?) scene
  (result.map fun _ => (), scene)

end Remote

end GrantCache
