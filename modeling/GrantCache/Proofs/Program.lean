import GrantCache.Program

/-!
# Programs among others

Two ways to speak about all runs of a program at once.

* `Program.Every P`: whatever the answers, the program performs only operations with `P`. What
  every such operation keeps, the whole run keeps (`Every.run`).
* `Program.Assured R Q`: the program runs among others, who may act between any two of its
  operations. `R` is what everybody keeps to: the program may rely on it whenever others act, and
  its own operations keep to it as well. In the end `Q` holds, and still holds whatever the others
  do then.

A program that is assured can be run to its end (`Assured.run`), or up to the first operation that
has to wait (`Assured.runUntil`).
-/

namespace GrantCache.Program

variable {Op σ α β : Type} {Ans : Op → Type}

/-! ## Operations of a program -/

/-- Whatever the answers, the program performs only operations with `P`. -/
def Every (P : Op → Prop) : Program Op Ans α → Prop
  | done _ => True
  | perform op next => P op ∧ ∀ answer, Every P (next answer)

@[simp] theorem every_done (P : Op → Prop) (a : α) :
    Every P (done a : Program Op Ans α) ↔ True := Iff.rfl

@[simp] theorem every_perform (P : Op → Prop) (op : Op) (next : Ans op → Program Op Ans α) :
    Every P (perform op next) ↔ P op ∧ ∀ answer, Every P (next answer) := Iff.rfl

theorem Every.bind {P : Op → Prop} {p : Program Op Ans α} {f : α → Program Op Ans β}
    (hp : Every P p) (hf : ∀ a, Every P (f a)) : Every P (p >>= f) := by
  induction p with
  | done a => exact hf a
  | perform op next ih => exact ⟨hp.1, fun answer => ih answer (hp.2 answer)⟩

theorem Every.forM {P : Op → Prop} {γ : Type} {f : γ → Program Op Ans Unit} {xs : List γ}
    (h : ∀ x ∈ xs, Every P (f x)) : Every P (xs.forM f) := by
  induction xs with
  | nil => trivial
  | cons x rest ih =>
    show Every P (f x >>= fun _ => rest.forM f)
    have first : Every P (f x) := h x (by simp)
    have others : Every P (rest.forM f) := ih fun y hy => h y (by simp [hy])
    exact first.bind fun _ => others

variable {handle : (op : Op) → σ → Option (Ans op) × σ}

/-- What every operation keeps, the whole run keeps. -/
theorem Every.run {P : Op → Prop} {I : σ → Prop} {p : Program Op Ans α} (hp : Every P p)
    (keep : ∀ op s, P op → I s → I (handle op s).2) {s : σ} (hs : I s) :
    I (run handle p s).2 := by
  induction p generalizing s with
  | done a => exact hs
  | perform op next ih =>
    -- Induction on the program, for every state: each answer leads on from the state it leaves.
    have kept := keep op s hp.1 hs
    rw [Program.run]
    split
    · rename_i answer s' he
      rw [he] at kept
      exact ih answer (hp.2 answer) kept
    · rename_i s' he
      rwa [he] at kept

theorem Every.runUntil {P : Op → Prop} {I : σ → Prop} {waits : Op → σ → Bool}
    {p : Program Op Ans α} (hp : Every P p)
    (keep : ∀ op s, P op → waits op s = false → I s → I (handle op s).2) {s : σ} (hs : I s) :
    I (runUntil waits handle p s).2 := by
  induction p generalizing s with
  | done a => exact hs
  | perform op next ih =>
    rw [Program.runUntil]
    split
    -- The operation has to wait, so the run stops where it stands.
    · exact hs
    · rename_i hw
      have kept := keep op s hp.1 (by simpa using hw) hs
      split
      · rename_i answer s' he
        rw [he] at kept
        exact ih answer (hp.2 answer) kept
      · rename_i s' he
        rwa [he] at kept

/-- A run comes to an end if none of its operations can halt it. -/
theorem Every.run_isSome {P : Op → Prop} {I : σ → Prop} {p : Program Op Ans α} (hp : Every P p)
    (keep : ∀ op s, P op → I s → I (handle op s).2)
    (answers : ∀ op s, P op → I s → (handle op s).1.isSome) {s : σ} (hs : I s) :
    (Program.run handle p s).1.isSome := by
  induction p generalizing s with
  | done a => rfl
  | perform op next ih =>
    have kept := keep op s hp.1 hs
    have answered := answers op s hp.1 hs
    rw [Program.run]
    split
    · rename_i answer s' he
      rw [he] at kept
      exact ih answer (hp.2 answer) kept
    · rename_i s' he
      simp [he] at answered

theorem Every.runUntil_isSome {P : Op → Prop} {I : σ → Prop} {waits : Op → σ → Bool}
    {p : Program Op Ans α} (hp : Every P p)
    (keep : ∀ op s, P op → waits op s = false → I s → I (handle op s).2)
    (answers : ∀ op s, P op → I s → (handle op s).1.isSome) {s : σ} (hs : I s) :
    (Program.runUntil waits handle p s).1.isSome := by
  induction p generalizing s with
  | done a => rfl
  | perform op next ih =>
    rw [Program.runUntil]
    split
    · rfl
    · rename_i hw
      have kept := keep op s hp.1 (by simpa using hw) hs
      have answered := answers op s hp.1 hs
      split
      · rename_i answer s' he
        rw [he] at kept
        exact ih answer (hp.2 answer) kept
      · rename_i s' he
        simp [he] at answered

/-- What is left of a program performs only what the program performs. -/
theorem Every.left {P : Op → Prop} {waits : Op → σ → Bool} {p left : Program Op Ans α}
    (hp : Every P p) {s s' : σ} (h : Program.runUntil waits handle p s = (some left, s')) :
    Every P left := by
  induction p generalizing s with
  | done a =>
    simp only [Program.runUntil, Prod.mk.injEq, Option.some.injEq] at h
    rw [← h.1]
    trivial
  | perform op next ih =>
    rw [Program.runUntil] at h
    split at h
    · simp only [Prod.mk.injEq, Option.some.injEq] at h
      rw [← h.1]
      exact hp
    · split at h
      · exact ih _ (hp.2 _) h
      · simp at h

/-! ## Runs that need not wait -/

/-- A program that came to its end without waiting was run to its end. -/
theorem run_of_runUntil {waits : Op → σ → Bool} {p : Program Op Ans α} {s s' : σ} {a : α}
    (h : runUntil waits handle p s = (some (done a), s')) : run handle p s = (some a, s') := by
  induction p generalizing s with
  | done b =>
    simp only [runUntil, Prod.mk.injEq, Option.some.injEq, done.injEq] at h
    obtain ⟨rfl, rfl⟩ := h
    rfl
  | perform op next ih =>
    rw [runUntil] at h
    split at h
    -- What waits is not done, and what is halted has no result.
    · simp at h
    · rw [run]
      split at h
      · exact ih _ h
      · simp at h

theorem waits_of_runUntil {waits : Op → σ → Bool} {p : Program Op Ans α} {s s' : σ} {op : Op}
    {next : Ans op → Program Op Ans α}
    (h : runUntil waits handle p s = (some (perform op next), s')) : waits op s' = true := by
  induction p generalizing s with
  | done b => simp [runUntil] at h
  | perform op' next' ih =>
    rw [runUntil] at h
    split at h
    · rename_i hw
      simp only [Prod.mk.injEq, Option.some.injEq, perform.injEq] at h
      obtain ⟨⟨rfl, -⟩, rfl⟩ := h
      exact hw
    · split at h
      · exact ih _ h
      · simp at h

/-! ## Programs that others may interrupt -/

/-- Whatever others do between its operations, as long as they keep to `R`, the program keeps to
`R` as well and ends with `Q`. What an operation can do and answer is said by `outcome`; where it
cannot be performed yet, it has no outcome. -/
def Assured (outcome : (op : Op) → σ → Option (Ans op) → σ → Prop) (R : σ → σ → Prop)
    (Q : α → σ → Prop) : Program Op Ans α → σ → Prop
  | done a, s => ∀ t, R s t → Q a t
  | perform op next, s => ∀ t, R s t → ∀ answer u, outcome op t answer u →
      R t u ∧ ∀ a, answer = some a → Assured outcome R Q (next a) u

section Assured

variable {outcome : (op : Op) → σ → Option (Ans op) → σ → Prop} {R : σ → σ → Prop}
  {Q Q' : α → σ → Prop} {s t : σ}

/-- What others do beforehand changes nothing. -/
theorem Assured.after (trans : ∀ a b c, R a b → R b c → R a c) {p : Program Op Ans α}
    (h : Assured outcome R Q p s) (hst : R s t) : Assured outcome R Q p t := by
  cases p with
  | done a => exact fun u hu => h u (trans _ _ _ hst hu)
  | perform op next => exact fun u hu => h u (trans _ _ _ hst hu)

theorem Assured.mono {p : Program Op Ans α} (h : Assured outcome R Q p s)
    (hQ : ∀ a s, Q a s → Q' a s) : Assured outcome R Q' p s := by
  induction p generalizing s with
  | done a => exact fun t ht => hQ a t (h t ht)
  | perform op next ih =>
    intro t ht answer u hu
    obtain ⟨own, rest⟩ := h t ht answer u hu
    exact ⟨own, fun a ha => ih a (rest a ha)⟩

theorem Assured.lasting (trans : ∀ a b c, R a b → R b c → R a c) {p : Program Op Ans α}
    (h : Assured outcome R Q p s) : Assured outcome R (fun a t => ∀ u, R t u → Q a u) p s := by
  induction p generalizing s with
  | done a => exact fun t ht u hu => h u (trans _ _ _ ht hu)
  | perform op next ih =>
    intro t ht answer u hu
    obtain ⟨own, rest⟩ := h t ht answer u hu
    exact ⟨own, fun a ha => ih a (rest a ha)⟩

/-- What everybody keeps still holds in the end. -/
theorem Assured.keeping {I : σ → Prop} (stable : ∀ {s t}, R s t → I s → I t)
    {p : Program Op Ans α} (h : Assured outcome R Q p s) (hi : I s) :
    Assured outcome R (fun a t => Q a t ∧ I t) p s := by
  induction p generalizing s with
  | done a => exact fun t ht => ⟨h t ht, stable ht hi⟩
  | perform op next ih =>
    intro t ht answer u hu
    obtain ⟨own, rest⟩ := h t ht answer u hu
    exact ⟨own, fun a ha => ih a (rest a ha) (stable own (stable ht hi))⟩

theorem Assured.bind (refl : ∀ s, R s s) {p : Program Op Ans α} {f : α → Program Op Ans β}
    {Q : β → σ → Prop} (h : Assured outcome R (fun a t => Assured outcome R Q (f a) t) p s) :
    Assured outcome R Q (p >>= f) s := by
  induction p generalizing s with
  | done a => exact h s (refl s)
  | perform op next ih =>
    intro t ht answer u hu
    obtain ⟨own, rest⟩ := h t ht answer u hu
    exact ⟨own, fun a ha => ih a (rest a ha)⟩

/-- The result of an assured program may be put to any use. -/
theorem Assured.map (refl : ∀ s, R s s) (trans : ∀ a b c, R a b → R b c → R a c)
    {p : Program Op Ans α} {Q : σ → Prop} (h : Assured outcome R (fun _ => Q) p s) (f : α → β) :
    Assured outcome R (fun _ => Q) (p >>= fun a => done (f a)) s :=
  Assured.bind refl (h.lasting trans)

/-- A program is assured of what everybody keeps, if each of its operations keeps to `R` there. -/
theorem Every.assured {P : Op → Prop} {I : σ → Prop} {p : Program Op Ans α} (hp : Every P p)
    (stable : ∀ {s t}, R s t → I s → I t)
    (own : ∀ {op s answer t}, P op → I s → outcome op s answer t → R s t) (hs : I s) :
    Assured outcome R (fun _ => I) p s := by
  induction p generalizing s with
  | done a => exact fun t ht => stable ht hs
  | perform op next ih =>
    intro t ht answer u hu
    -- The others have kept `I` up to here, and by `R` the operation keeps it, too.
    have step : R t u := own hp.1 (stable ht hs) hu
    exact ⟨step, fun a _ => ih a (hp.2 a) (stable step (stable ht hs))⟩

/-- An assured program run to its end. Before an operation that has to wait others do what it waits
for. -/
theorem Assured.run (refl : ∀ s, R s s) (trans : ∀ a b c, R a b → R b c → R a c)
    (answers : ∀ op s, ∃ t, R s t ∧ outcome op t (handle op s).1 (handle op s).2)
    {p : Program Op Ans α} (h : Assured outcome R Q p s) :
    R s (Program.run handle p s).2 ∧
      ∀ a, (Program.run handle p s).1 = some a → Q a (Program.run handle p s).2 := by
  induction p generalizing s with
  | done a => exact ⟨refl s, fun b hb => by cases hb; exact h s (refl s)⟩
  | perform op next ih =>
    -- the instant at which the operation no longer has to wait
    obtain ⟨t, hst, ho⟩ := answers op s
    obtain ⟨own, rest⟩ := h t hst _ _ ho
    rw [Program.run]
    rcases hr : handle op s with ⟨_ | answer, u⟩
    · rw [hr] at own
      exact ⟨trans _ _ _ hst own, fun a ha => by cases ha⟩
    · rw [hr] at own rest
      obtain ⟨kept, last⟩ := ih answer (rest answer rfl)
      exact ⟨trans _ _ _ hst (trans _ _ _ own kept), last⟩

/-- What is left of an assured program that was run up to the first operation that has to wait. -/
theorem Assured.runUntil (refl : ∀ s, R s s) (trans : ∀ a b c, R a b → R b c → R a c)
    {waits : Op → σ → Bool}
    (answers : ∀ op s, waits op s = false → outcome op s (handle op s).1 (handle op s).2)
    {p : Program Op Ans α} (h : Assured outcome R Q p s) :
    R s (Program.runUntil waits handle p s).2 ∧
      ∀ left, (Program.runUntil waits handle p s).1 = some left →
        Assured outcome R Q left (Program.runUntil waits handle p s).2 := by
  induction p generalizing s with
  | done a => exact ⟨refl s, fun left hl => by cases hl; exact h⟩
  | perform op next ih =>
    rw [Program.runUntil]
    split
    · exact ⟨refl s, fun left hl => by cases hl; exact h⟩
    · rename_i hw
      -- Nobody else acts in between.
      obtain ⟨own, rest⟩ := h s (refl s) _ _ (answers op s (by simpa using hw))
      rcases hr : handle op s with ⟨_ | answer, u⟩
      · rw [hr] at own
        exact ⟨own, fun left hl => by cases hl⟩
      · rw [hr] at own rest
        obtain ⟨kept, last⟩ := ih answer (rest answer rfl)
        exact ⟨trans _ _ _ own kept, last⟩

end Assured

end GrantCache.Program
