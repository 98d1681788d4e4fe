/-!
# Failures — refusing and breaking off

An operation that gives no answer either *refuses*, with a reason of its own, or *breaks off*:
a constant that has to divide is zero, a cell outside a buffer is touched, or a collaborator (a
store, a sink) stops in the middle of a call.  The two are kept apart because a refusal leaves a
region usable and a break closes it.
-/

namespace BeaconHistory

/-- Why a computation broke off without an answer. -/
inductive Fault where
  | divisionByZero
  | indexOutOfBounds
  | collaborator
deriving DecidableEq, Repr

/-- Why an operation gave no answer: it refused for a reason in `ε`, or it broke off. -/
inductive Failure (ε : Type) where
  | refused (reason : ε)
  | broke (fault : Fault)
deriving DecidableEq, Repr

namespace Failure

variable {ε δ : Type}

/-- Restates the reason of a refusal; a break stays a break. -/
def map (f : ε → δ) : Failure ε → Failure δ
  | refused e => refused (f e)
  | broke b => broke b

@[simp] theorem map_refused (f : ε → δ) (e : ε) : (refused e).map f = refused (f e) := rfl
@[simp] theorem map_broke (f : ε → δ) (b : Fault) : (broke b).map f = broke b := rfl

end Failure

/-- The answer of a query: a value, or a failure. -/
abbrev Outcome (ε α : Type) := Except (Failure ε) α

namespace Outcome

variable {ε δ α : Type}

def refuse (reason : ε) : Outcome ε α := .error (.refused reason)

def breakOff (fault : Fault) : Outcome ε α := .error (.broke fault)

def mapReason (f : ε → δ) : Outcome ε α → Outcome δ α
  | .ok a => .ok a
  | .error e => .error (e.map f)

/-- Reads an answer that can only be refused as an outcome. -/
def ofExcept : Except ε α → Outcome ε α
  | .ok a => .ok a
  | .error e => .error (.refused e)

@[simp] theorem mapReason_ok (f : ε → δ) (a : α) : mapReason f (.ok a) = .ok a := rfl

@[simp] theorem mapReason_error (f : ε → δ) (e : Failure ε) :
    mapReason f (.error e : Outcome ε α) = .error (e.map f) := rfl

@[simp] theorem ofExcept_ok (a : α) : ofExcept (.ok a : Except ε α) = .ok a := rfl

@[simp] theorem ofExcept_error (e : ε) : ofExcept (.error e : Except ε α) = refuse e := rfl

theorem mapReason_eq_ok_iff {f : ε → δ} {o : Outcome ε α} {a : α} :
    mapReason f o = .ok a ↔ o = .ok a := by
  cases o <;> simp [mapReason]

end Outcome

/-- An operation on `σ` that keeps what it has done so far when it fails. -/
abbrev Operation (ε σ α : Type) := EStateM (Failure ε) σ α

namespace Operation

variable {ε δ σ α : Type}

def refuse (reason : ε) : Operation ε σ α := throw (.refused reason)

/-- Answers from the state without changing it. -/
def ofOutcome (query : σ → Outcome ε α) : Operation ε σ α := fun s =>
  match query s with
  | .ok a => .ok a s
  | .error e => .error e s

/-- The outcome of an operation started in `s`, the state it leaves being dropped. -/
def outcome (op : Operation ε σ α) (s : σ) : Outcome ε α :=
  match op.run s with
  | .ok a _ => .ok a
  | .error e _ => .error e

/-- The state that an operation started in `s` leaves behind, whether it fails or not. -/
def after (op : Operation ε σ α) (s : σ) : σ :=
  match op.run s with
  | .ok _ t => t
  | .error _ t => t

/-- The state reached by an operation that succeeds from `s`. -/
def reach (op : Operation ε σ Unit) (s : σ) : Outcome ε σ :=
  match op.run s with
  | .ok _ t => .ok t
  | .error e _ => .error e

end Operation

end BeaconHistory
