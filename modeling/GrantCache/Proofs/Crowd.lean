import GrantCache.Proofs.Grants.Runs

/-!
# Calls at once

Several callers share a cache of grants. Each call is what is left of a plan, and in a turn one call
performs one effect, or one key of a queued index write is written; who gets the turn is up to the
schedule. A call that has to wait loses its turn. When a plan clears users at once, each turn of the
call is a step of the clearing of one of them, in whatever order.

`Remains.Goes` says once what a turn of a call can do. What a plan is assured of, the call is assured of
along the whole schedule (`Remains.Assures.goes`).
-/

namespace GrantCache

open Grants
open Program (Every Assured)

/-! ## Calls -/

/-- What callers ask of a cache of grants. -/
inductive Op where
  | set (kind : GrantKind) (user : String) (codes : List String) (ttl : Option Nat)
  | get (kind : GrantKind) (user : String)
  | deleteUser (user : String)
  | invalidate (kind : GrantKind) (code : String)
  | invalidateAll (kind : GrantKind) (codes : List String)
deriving DecidableEq

/-- What is left of a call. -/
inductive Remains where
  /-- A plan that goes on by itself. -/
  | alone (rest : WidePlan Unit)
  /-- Users are being cleared at once; the plan goes on when all of them are. -/
  | batch (clears : List (Plan (Option Fault))) (next : List (Option Fault) → WidePlan Unit)
  /-- Halted by a deadline beyond the end of the clock. -/
  | halted

namespace Op

/-- The plan of a call. The caller's use of the result is of no concern. -/
def plan (g : Grants) : Op → WidePlan Unit
  | set kind user codes ttl =>
    (Plan.store kind user codes (ttl.getD g.defaultTtl)).widen >>= fun _ => .done ()
  | get kind user => (Plan.read kind user).widen >>= fun _ => .done ()
  | deleteUser user => (Plan.delete user).widen >>= fun _ => .done ()
  | invalidate kind code => Plan.invalidate g.batchSize kind code >>= fun _ => .done ()
  | invalidateAll kind codes => Plan.invalidateAll g.batchSize kind codes >>= fun _ => .done ()

/-- A call that caches codes of a kind for a user. -/
def Caches (kind : GrantKind) (user : String) : Op → Prop
  | set k u .. => k = kind ∧ u = user
  | _ => False

instance (kind : GrantKind) (user : String) : DecidablePred (Caches kind user)
  | set k u .. => inferInstanceAs (Decidable (k = kind ∧ u = user))
  | get .. => isFalse id
  | deleteUser _ => isFalse id
  | invalidate .. => isFalse id
  | invalidateAll .. => isFalse id

end Op

/-- The result of a program that is done. -/
def Program.result? {Op α : Type} {Ans : Op → Type} : Program Op Ans α → Option α
  | done a => some a
  | perform .. => none

/-- Where all programs have results, all are done. -/
theorem Program.done_of_mapM {Op α : Type} {Ans : Op → Type} {ps : List (Program Op Ans α)}
    {results : List α} (h : ps.mapM result? = some results) : ∀ p ∈ ps, ∃ a, p = done a := by
  induction ps generalizing results with
  | nil => exact nofun
  | cons first rest ih =>
    rw [List.mapM_cons] at h
    obtain ⟨a, ha, h⟩ := Option.bind_eq_some_iff.1 h
    obtain ⟨others, ho, -⟩ := Option.bind_eq_some_iff.1 h
    rintro p (_ | ⟨_, hp⟩)
    · cases first with
      | done a => exact ⟨a, rfl⟩
      | perform op next => cases ha
    · exact ih ho p hp

def Grants.attempt (e : Effect) (g : Grants) : Option (Option e.Answer × Grants) :=
  if waits e g then none else some (g.perform e)

namespace Remains

def isDone : Remains → Bool
  | alone (.done _) => true
  | _ => false

theorem eq_done_of_isDone {left : Remains} (h : left.isDone = true) : left = alone (.done ()) := by
  unfold isDone at h
  split at h
  · rfl
  · cases h

/-- The effect that a turn of a call would have, if there is one. -/
def next? (place : Nat) : Remains → Option Effect
  | alone (.perform (.single e) _) => some e
  | batch clears _ =>
    match clears[place]? with
    | some (.perform e _) => some e
    | _ => none
  | _ => none

/-- One turn of a call; in a batch, at a place. -/
def go (place : Nat) (g : Grants) : Remains → Remains × Grants
  | alone (.perform (.single e) next) =>
    match g.attempt e with
    | none => (alone (.perform (.single e) next), g)
    | some (some a, g) => (alone (next a), g)
    | some (none, g) => (halted, g)
  | alone (.perform (.clearAll users) next) => (batch (users.map Plan.clear) next, g)
  | batch clears next =>
    match clears.mapM Program.result? with
    | some faults => (alone (next faults), g)
    | none =>
      match clears[place]? with
      | some (.perform e rest) =>
        match g.attempt e with
        | none => (batch clears next, g)
        | some (some a, g) => (batch (clears.set place (rest a)) next, g)
        | some (none, g) => (halted, g)
      | _ => (batch clears next, g)
  | left => (left, g)

/-- What a turn of a call can do. -/
inductive Goes (place : Nat) : Remains → Grants → Remains → Grants → Prop
  | rest (left : Remains) (g : Grants) : Goes place left g left g
  | single {e : Effect} {next : e.Answer → WidePlan Unit} {g g' : Grants} {a : e.Answer}
    (h : Outcome e g (some a) g') : Goes place (alone (.perform (.single e) next)) g (alone (next a)) g'
  | halt {e : Effect} {next : e.Answer → WidePlan Unit} {g g' : Grants} (h : Outcome e g none g') :
    Goes place (alone (.perform (.single e) next)) g halted g'
  | split (users : List String) (next : List (Option Fault) → WidePlan Unit) (g : Grants) :
    Goes place (alone (.perform (.clearAll users) next)) g (batch (users.map Plan.clear) next) g
  | join {clears : List (Plan (Option Fault))} {faults : List (Option Fault)}
    (next : List (Option Fault) → WidePlan Unit) (g : Grants)
    (h : clears.mapM Program.result? = some faults) :
    Goes place (batch clears next) g (alone (next faults)) g
  | member {clears : List (Plan (Option Fault))} {next : List (Option Fault) → WidePlan Unit}
    {e : Effect} {rest : e.Answer → Plan (Option Fault)} {g g' : Grants} {a : e.Answer}
    (hp : clears[place]? = some (.perform e rest)) (h : Outcome e g (some a) g') :
    Goes place (batch clears next) g (batch (clears.set place (rest a)) next) g'
  | memberHalt {clears : List (Plan (Option Fault))} {next : List (Option Fault) → WidePlan Unit}
    {e : Effect} {rest : e.Answer → Plan (Option Fault)} {g g' : Grants}
    (hp : clears[place]? = some (.perform e rest)) (h : Outcome e g none g') :
    Goes place (batch clears next) g halted g'

theorem outcome_of_attempt {e : Effect} {g g' : Grants} {a : Option e.Answer}
    (h : g.attempt e = some (a, g')) : Outcome e g a g' := by
  rw [attempt] at h
  split at h
  · cases h
  · rename_i hw
    exact ⟨by simpa using hw, Option.some.inj h⟩

/-- A turn of a call is one of what turns can do. -/
theorem goes (place : Nat) (g : Grants) (left : Remains) :
    Goes place left g (left.go place g).1 (left.go place g).2 := by
  unfold go
  split
  · split
    · exact .rest _ g
    · exact .single (outcome_of_attempt ‹_›)
    · exact .halt (outcome_of_attempt ‹_›)
  · exact .split _ _ g
  · split
    · exact .join _ g ‹_›
    · split
      · split
        · exact .rest _ g
        · exact .member ‹_› (outcome_of_attempt ‹_›)
        · exact .memberHalt ‹_› (outcome_of_attempt ‹_›)
      · exact .rest _ g
  · exact .rest _ g

/-- A turn performs the next effect, or none. -/
theorem Goes.cases {place : Nat} {left left' : Remains} {g g' : Grants} (h : Goes place left g left' g') :
    g' = g ∨ ∃ e, left.next? place = some e ∧ waits e g = false ∧ g' = (perform e g).2 := by
  have performed {e : Effect} {a : Option e.Answer} (ho : Outcome e g a g') :
      waits e g = false ∧ g' = (perform e g).2 := ⟨ho.1, by rw [ho.2]⟩
  cases h with
  | rest | split | join => exact Or.inl rfl
  | single h => exact Or.inr ⟨_, rfl, performed h⟩
  | halt h => exact Or.inr ⟨_, rfl, performed h⟩
  | member hp h => exact Or.inr ⟨_, by rw [next?, hp], performed h⟩
  | memberHalt hp h => exact Or.inr ⟨_, by rw [next?, hp], performed h⟩

/-! ## What all effects of a call have -/

variable {P : Effect → Prop}

/-- A wide effect that consists of effects with a property. -/
def Consists (P : Effect → Prop) : Effect.Wide → Prop
  | .single e => P e
  | .clearAll users => ∀ user ∈ users, Every P (Plan.clear user)

/-- All that a call may still perform has a property. -/
def Every (P : Effect → Prop) : Remains → Prop
  | alone rest => Program.Every (Consists P) rest
  | batch clears next =>
    (∀ p ∈ clears, Program.Every P p) ∧ ∀ faults, Program.Every (Consists P) (next faults)
  | halted => True

theorem Every.next {place : Nat} {left : Remains} {e : Effect} (h : left.Every P)
    (he : left.next? place = some e) : P e := by
  unfold next? at he
  split at he
  · obtain rfl := Option.some.inj he
    exact h.1
  · split at he
    · rename_i hp
      obtain rfl := Option.some.inj he
      have all := h.1 _ (List.mem_of_getElem? hp)
      exact all.1
    · cases he
  · cases he

/-- What holds of the effects of a call holds of those that are left. -/
theorem Every.goes {place : Nat} {left left' : Remains} {g g' : Grants} (h : left.Every P)
    (hg : Goes place left g left' g') : left'.Every P := by
  cases hg with
  | rest => exact h
  | single _ => exact h.2 _
  | halt _ => trivial
  | split users next _ =>
    refine ⟨fun p hp => ?_, h.2⟩
    obtain ⟨user, hu, rfl⟩ := List.mem_map.1 hp
    exact h.1 user hu
  | join next _ _ => exact h.2 _
  | member hp _ =>
    refine ⟨fun p hm => ?_, h.2⟩
    rcases List.mem_or_eq_of_mem_set hm with hm | rfl
    · exact h.1 p hm
    · have all := h.1 _ (List.mem_of_getElem? hp)
      exact all.2 _
  | memberHalt _ _ => trivial

/-- The effects of a call are those that everything is made of, and the two of caching. -/
theorem every_plan (h : Plan.Common P) (g : Grants) (op : Op)
    (caches : ∀ kind user codes ttl, op = .set kind user codes ttl → ∀ seconds,
      P (.ask (.set (kind.entryKey user) (.texts codes.eraseDups) (some seconds))) ∧
        P (.launch user (codes.eraseDups.map fun code => kind.indexKey code))) :
    (alone (op.plan g)).Every P := by
  have widen {α : Type} {p : Plan α} (hp : Program.Every P p) :
      Program.Every (Consists P) (p.widen >>= fun _ => .done ()) :=
    (Plan.every_widen (fun _ h => h) hp).bind fun _ => trivial
  -- A revocation of several codes consists of invalidations, so these come first.
  have invalidate (kind : GrantKind) (code : String) :
      Program.Every (Consists P) (Plan.invalidate g.batchSize kind code) := by
    refine Plan.every_invalidate _
      (Plan.every_widen (fun _ h => h) (Plan.every_settle h.toPatient _)) ?_
    exact Plan.every_clearIndex h.report (fun users user _ => h.every_clear user) (h.members kind code)
      (h.deleteIndex kind code) _
  cases op with
  | set kind user codes ttl =>
    obtain ⟨set, launch⟩ := caches kind user codes ttl rfl (ttl.getD g.defaultTtl)
    exact widen (Plan.every_store h.report set launch)
  | get kind user => exact widen (Plan.every_read h.report (h.get _))
  | deleteUser user => exact widen (Plan.every_delete h.report (h.every_clear user))
  | invalidate kind code => exact (invalidate kind code).bind fun _ => trivial
  | invalidateAll kind codes =>
    have all : Program.Every (Consists P) (Plan.invalidateAll g.batchSize kind codes) :=
      Plan.every_invalidateAll fun code _ => invalidate kind code
    exact all.bind fun _ => trivial

/-! ## What a call is assured of -/

variable {x : Grant} {Q : Grants → Prop}

/-- A call keeps to what is promised about a grant, whatever others do, and ends with `Q`. In a batch
the user of the grant has no entry any more when all are cleared, if the user is among them. -/
def Assures (x : Grant) (Q : Grants → Prop) (g : Grants) : Remains → Prop
  | alone rest => x.WideAssures (fun _ => Q) rest g
  | batch clears next =>
    (∀ p ∈ clears, x.Assures (fun _ => Sound) p g) ∧
    ∃ among : Prop,
      (among → ∃ (k : Nat) (p : Plan (Option Fault)), clears[k]? = some p ∧
        x.Assures (fun _ t => t.Sound ∧ x.Cleared t) p g) ∧
      ∀ t, x.Respects g t → (among → x.Cleared t) → ∀ faults, x.WideAssures (fun _ => Q) (next faults) t
  | halted => True

/-- What others do, if they keep to what is promised, takes no assurance away. -/
theorem Assures.after {left : Remains} {g g' : Grants} (h : left.Assures x Q g)
    (hr : x.Respects g g') : left.Assures x Q g' := by
  cases left with
  | alone rest => exact Assured.after (fun _ _ _ => .trans) h hr
  | batch clears next =>
    obtain ⟨all, among, chosen, last⟩ := h
    refine ⟨fun p hp => (all p hp).after hr, among, fun ha => ?_, fun t ht => last t (hr.trans ht)⟩
    obtain ⟨k, p, hk, hp⟩ := chosen ha
    exact ⟨k, p, hk, hp.after hr⟩
  | halted => trivial

theorem assured_outcome {α : Type} {e : Effect} {rest : e.Answer → Plan α} {R : α → Grants → Prop}
    {g g' : Grants} {a : Option e.Answer} (h : x.Assures R (.perform e rest) g) (ho : Outcome e g a g') :
    x.Respects g g' ∧ ∀ b, a = some b → x.Assures R (rest b) g' := h g (.refl x g) a g' ho

/-- A turn of a call keeps to what is promised, and what is left of the call is assured of what the
call was. -/
theorem Assures.goes {place : Nat} {left left' : Remains} {g g' : Grants} (h : left.Assures x Q g)
    (hs : g.Sound) (hg : Goes place left g left' g') : x.Respects g g' ∧ left'.Assures x Q g' := by
  cases hg with
  | rest => exact ⟨.refl x g, h⟩
  | single ho =>
    obtain ⟨own, rest⟩ := h g (.refl x g) _ _ ho
    exact ⟨own, rest _ rfl⟩
  | halt ho =>
    obtain ⟨own, -⟩ := h g (.refl x g) _ _ ho
    exact ⟨own, trivial⟩
  | split users next _ =>
    -- Each clearing begins anew, whatever was assured of the users before.
    refine ⟨.refl x g, fun p hp => ?_, x.user ∈ users, fun hu => ?_, fun t ht hc faults => ?_⟩
    · obtain ⟨user, -, rfl⟩ := List.mem_map.1 hp
      exact (Grant.assures_clear x user hs).mono fun _ _ h => h.1
    · obtain ⟨k, hk⟩ := List.mem_iff_getElem?.1 (List.mem_map_of_mem hu)
      exact ⟨k, _, hk, (Grant.assures_clear x x.user hs).mono fun _ _ h => ⟨h.1, h.2 rfl⟩⟩
    · exact (h g (.refl x g) (some faults) t ⟨ht, fun _ _ hu => hc hu⟩).2 faults rfl
  | join next _ hm =>
    obtain ⟨-, among, chosen, last⟩ := h
    refine ⟨.refl x g, last g (.refl x g) (fun ha => ?_) _⟩
    obtain ⟨k, p, hk, hp⟩ := chosen ha
    obtain ⟨a, rfl⟩ := Program.done_of_mapM hm p (List.mem_of_getElem? hk)
    exact (hp g (.refl x g)).2
  | member hp ho =>
    obtain ⟨all, among, chosen, last⟩ := h
    obtain ⟨own, rest⟩ := assured_outcome (all _ (List.mem_of_getElem? hp)) ho
    -- One clearing goes on; for the others, and for the plan, it is as if somebody else had done it.
    refine ⟨own, fun q hq => ?_, among, fun ha => ?_, fun t ht => last t (own.trans ht)⟩
    · rcases List.mem_or_eq_of_mem_set hq with hq | rfl
      · exact (all q hq).after own
      · exact rest _ rfl
    · obtain ⟨k, q, hk, hq⟩ := chosen ha
      by_cases hkp : place = k
      · subst hkp
        obtain rfl := Option.some.inj (hp.symm.trans hk)
        have hlt : place < _ := (List.getElem?_eq_some_iff.1 hp).1
        exact ⟨place, _, by simp [hlt], (assured_outcome hq ho).2 _ rfl⟩
      · exact ⟨k, q, by rw [List.getElem?_set_ne hkp, hk], hq.after own⟩
  | memberHalt hp ho =>
    exact ⟨(assured_outcome (h.1 _ (List.mem_of_getElem? hp)) ho).1, trivial⟩

end Remains

/-! ## Turns -/

/-- What was asked for, and what is left to do. -/
structure Call where
  op : Op
  left : Remains

/-- A cache of grants with the calls on it, in the order in which they began. -/
structure Crowd where
  grants : Grants
  calls : List Call := []

/-- Who has the turn. -/
inductive Turn where
  | ask (op : Op)
  /-- A call goes on; in a batch, at a place. -/
  | go (call place : Nat)
  /-- The next key of an index write is written. -/
  | work (write : Nat)
  | pass (ms : Nat)

def Turn.asks? : Turn → Option Op
  | ask op => some op
  | _ => none

namespace Crowd

variable {c : Crowd} {i place : Nat} {t : Turn} {turns : List Turn}

def start (host : Host) (defaultTtl batchSize : Nat) : Crowd :=
  { grants := .start host defaultTtl batchSize }

/-- A call begins, a call goes on, or something happens to the cache. -/
def turn (t : Turn) (c : Crowd) : Crowd :=
  match t with
  | .ask op => { c with calls := c.calls ++ [⟨op, .alone (op.plan c.grants)⟩] }
  | .go i place =>
    match c.calls[i]? with
    | none => c
    | some call =>
      let (left, grants) := call.left.go place c.grants
      { grants, calls := c.calls.set i { call with left } }
  | .work id => { c with grants := c.grants.proceed id }
  | .pass ms => { c with grants := c.grants.pass ms }

def play (turns : List Turn) (c : Crowd) : Crowd := turns.foldl (fun c t => c.turn t) c

def hasEnded (i : Nat) (c : Crowd) : Bool := c.calls[i]?.any (·.left.isDone)

/-- Which call performs which effect in a turn, unless it has to wait. -/
def acts? (t : Turn) (c : Crowd) : Option (Nat × Effect) :=
  match t with
  | .go i place => (c.calls[i]?.bind (·.left.next? place)).map (i, ·)
  | _ => none

/-- A property of each turn and of the state in which it is taken. -/
def Throughout (P : Crowd → Turn → Prop) : List Turn → Crowd → Prop
  | [], _ => True
  | t :: rest, c => P c t ∧ Throughout P rest (c.turn t)

instance {P : Crowd → Turn → Prop} [∀ c t, Decidable (P c t)] :
    (turns : List Turn) → (c : Crowd) → Decidable (Throughout P turns c)
  | [], _ => isTrue trivial
  | t :: rest, c =>
    have : Decidable (Throughout P rest (c.turn t)) := instDecidableThroughout rest (c.turn t)
    inferInstanceAs (Decidable (P c t ∧ Throughout P rest (c.turn t)))

/-- What a turn of a call does to the crowd. -/
theorem turn_go (i place : Nat) (c : Crowd) :
    c.turn (.go i place) = c ∨ ∃ call left grants, c.calls[i]? = some call ∧
      Remains.Goes place call.left c.grants left grants ∧
      c.turn (.go i place) = ⟨grants, c.calls.set i ⟨call.op, left⟩⟩ := by
  rw [turn]
  split
  · exact Or.inl rfl
  · rename_i call hc
    exact Or.inr ⟨call, _, _, hc, call.left.goes place c.grants, rfl⟩

/-- What calls begin with and what they keep as they go on, all calls have. -/
theorem forall_calls_turn {R : Call → Prop} (h : ∀ call ∈ c.calls, R call)
    (begins : ∀ op : Op, R ⟨op, .alone (op.plan c.grants)⟩)
    (goes : ∀ {call place left grants}, R call → Remains.Goes place call.left c.grants left grants →
      R ⟨call.op, left⟩) (t : Turn) : ∀ call ∈ (c.turn t).calls, R call := by
  cases t with
  | ask op =>
    intro call hm
    rcases List.mem_append.1 hm with hm | hm
    · exact h call hm
    · obtain rfl := List.mem_singleton.1 hm
      exact begins op
  | go i place =>
    rcases turn_go i place c with same | ⟨old, left, grants, hi, hg, he⟩
    · rw [same]
      exact h
    · rw [he]
      intro call hm
      rcases List.mem_or_eq_of_mem_set hm with hm | rfl
      · exact h call hm
      · exact goes (h old (List.mem_of_getElem? hi)) hg
  | work id => exact h
  | pass ms => exact h

/-- What every turn keeps, a schedule keeps. -/
theorem Throughout.play {P : Crowd → Turn → Prop} {I : Crowd → Prop} (h : Throughout P turns c)
    (keep : ∀ {c t}, P c t → I c → I (c.turn t)) (hi : I c) : I (c.play turns) := by
  induction turns generalizing c with
  | nil => exact hi
  | cons t rest ih => exact ih h.2 (keep h.1 hi)

theorem throughout_true (turns : List Turn) (c : Crowd) : Throughout (fun _ _ => True) turns c := by
  induction turns generalizing c with
  | nil => trivial
  | cons t rest ih => exact ⟨trivial, ih _⟩

end Crowd

end GrantCache
