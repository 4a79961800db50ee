/-!
# Programs as data

A program is a tree: it is done, or it performs an operation and goes on according to the answer.
What an operation does is said only when the program is run (`Program.run`), so one program can be
run on its own, and also step by step among others (`Program.runUntil`).
-/

namespace GrantCache

/-- A program that performs operations from `Op` and ends with a result. -/
inductive Program (Op : Type) (Ans : Op → Type) (α : Type) where
  | done (result : α)
  | perform (op : Op) (next : Ans op → Program Op Ans α)

namespace Program

variable {Op : Type} {Ans : Op → Type} {α β : Type}

def bind : Program Op Ans α → (α → Program Op Ans β) → Program Op Ans β
  | done a, f => f a
  | perform op next, f => perform op fun answer => bind (next answer) f

instance : Monad (Program Op Ans) where
  pure := done
  bind := bind

/-- Run a program on a state. An operation may halt the run; the state stays as it was left. -/
def run {σ : Type} (handle : (op : Op) → σ → Option (Ans op) × σ) :
    Program Op Ans α → σ → Option α × σ
  | done a, s => (some a, s)
  | perform op next, s =>
    match handle op s with
    | (some answer, s) => run handle (next answer) s
    | (none, s) => (none, s)

/-- Run a program up to the first operation that would have to wait: what is left of it. -/
def runUntil {σ : Type} (waits : Op → σ → Bool) (handle : (op : Op) → σ → Option (Ans op) × σ) :
    Program Op Ans α → σ → Option (Program Op Ans α) × σ
  | done a, s => (some (done a), s)
  | perform op next, s =>
    if waits op s then (some (perform op next), s)
    else
      match handle op s with
      | (some answer, s) => runUntil waits handle (next answer) s
      | (none, s) => (none, s)

/-- Put a program in place of every operation. -/
def expand {Op' : Type} {Ans' : Op' → Type} (meaning : (op : Op) → Program Op' Ans' (Ans op)) :
    Program Op Ans α → Program Op' Ans' α
  | done a => done a
  | perform op next => bind (meaning op) fun answer => expand meaning (next answer)

/-! ### Laws -/

@[simp] theorem pure_eq_done (a : α) : (pure a : Program Op Ans α) = done a := rfl

@[simp] theorem done_bind (a : α) (f : α → Program Op Ans β) : (done a >>= f) = f a := rfl

@[simp] theorem perform_bind (op : Op) (next : Ans op → Program Op Ans α)
    (f : α → Program Op Ans β) :
    (perform op next >>= f) = perform op fun answer => next answer >>= f := rfl

theorem bind_done (p : Program Op Ans α) : (p >>= done) = p := by
  induction p with
  | done a => rfl
  | perform op next ih => simp [ih]

theorem bind_assoc {γ : Type} (p : Program Op Ans α) (f : α → Program Op Ans β)
    (g : β → Program Op Ans γ) : (p >>= f >>= g) = p >>= fun a => f a >>= g := by
  induction p with
  | done a => rfl
  | perform op next ih => simp [ih]

instance : LawfulMonad (Program Op Ans) :=
  LawfulMonad.mk' (Program Op Ans) bind_done (fun _ _ => rfl) bind_assoc

/-- Running one program after another is running their composition. -/
theorem run_bind {σ : Type} (handle : (op : Op) → σ → Option (Ans op) × σ)
    (p : Program Op Ans α) (f : α → Program Op Ans β) (s : σ) :
    run handle (p >>= f) s =
      match run handle p s with
      | (some a, s) => run handle (f a) s
      | (none, s) => (none, s) := by
  induction p generalizing s with
  | done a => rfl
  | perform op next ih =>
    simp only [perform_bind, run]
    split
    · exact ih _ _
    · rfl

/-- Replacing operations by programs and then running is running with what those programs do. -/
theorem run_expand {Op' : Type} {Ans' : Op' → Type} {σ : Type}
    (meaning : (op : Op) → Program Op' Ans' (Ans op))
    (handle : (op : Op') → σ → Option (Ans' op) × σ) (p : Program Op Ans α) (s : σ) :
    run handle (p.expand meaning) s = run (fun op => run handle (meaning op)) p s := by
  induction p generalizing s with
  | done a => rfl
  | perform op next ih =>
    have step := run_bind handle (meaning op) (fun answer => (next answer).expand meaning) s
    rw [run, expand]
    refine step.trans ?_
    rcases run handle (meaning op) s with ⟨_ | answer, s'⟩
    · rfl
    · exact ih answer s'

/-- A run that never has to wait comes to its end. -/
theorem runUntil_of_never {σ : Type} (handle : (op : Op) → σ → Option (Ans op) × σ)
    (p : Program Op Ans α) (s : σ) :
    runUntil (fun _ _ => false) handle p s = ((run handle p s).1.map done, (run handle p s).2) := by
  induction p generalizing s with
  | done a => rfl
  | perform op next ih =>
    simp only [run, runUntil, Bool.false_eq_true, if_false]
    split
    · exact ih _ _
    · rfl

end Program

end GrantCache
