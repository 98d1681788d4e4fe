import BeaconHistory.Query.Error

/-!
# Context — bounds on the work of a query

A context is cancelled or not, and may have a deadline on a clock that is read when the context is
checked.  Work checks it before every step that takes time.
-/

namespace BeaconHistory

structure Context where
  cancelled : Bool
  deadline : Option Nat
  -- Reading of the clock.
  now : Nat
deriving DecidableEq, Repr

namespace Context

-- Never cancelled, and without a deadline.
def unbounded : Context := ⟨false, none, 0⟩

def cancel (c : Context) : Context := { c with cancelled := true }

def withTimeout (timeout : Nat) (c : Context) : Context := { c with deadline := some (c.now + timeout) }

def expired (c : Context) : Bool := c.deadline.any (· ≤ c.now)

/-- Refuses once the context is cancelled or, if it is not, once its deadline has come. -/
def check (c : Context) : Outcome Query.Error Unit :=
  if c.cancelled then .refuse .cancelled
  else if c.expired then .refuse .deadlineExceeded
  else .ok ()

@[simp] theorem check_unbounded : unbounded.check = .ok () := rfl

theorem isInterrupted_of_check {c : Context} {e : Query.Error} (h : c.check = .error (.refused e)) :
    e.isInterrupted = true := by
  unfold check Outcome.refuse at h
  split at h
  · cases h; rfl
  · split at h
    · cases h; rfl
    · cases h

end Context

end BeaconHistory
