import Sandbox.Log

/-! # Actions

An action changes a state, appends log records and may stop early. Whatever it
changed and logged before it stopped stays changed and logged.
-/

namespace Sandbox

/-- A state together with what was logged on the way to it. -/
structure Logged (σ : Type) where
  state : σ
  log : Array LogRecord := #[]

abbrev Action (σ : Type) := EStateM Stop (Logged σ)

namespace Action

variable {σ τ α : Type}

instance : MonadLift (Except Abort) (Action σ) where
  monadLift
    | .ok x => pure x
    | .error a => throw (.abort a)

def read : Action σ σ := do
  return (← get).state

def update (f : σ → σ) : Action σ Unit :=
  modify fun s => { s with state := f s.state }

def log (r : LogRecord) : Action σ Unit :=
  modify fun s => { s with log := s.log.push r }

def abort (a : Abort) : Action σ α :=
  throw (.abort a)

def refuse (r : Refusal) : Action σ α :=
  throw (.refusal r)

/-- Run an action on one part of the state. -/
def on (part : σ → τ) (replace : τ → σ → σ) (act : Action τ α) : Action σ α := fun s =>
  match act ⟨part s.state, s.log⟩ with
  | .ok x t => .ok x ⟨replace t.state s.state, t.log⟩
  | .error e t => .error e ⟨replace t.state s.state, t.log⟩

/-- Run an action to its end, whichever it is. -/
def attempt (act : Action σ α) : Action σ (Except Stop α) := fun s =>
  match act s with
  | .ok x s => .ok (.ok x) s
  | .error e s => .ok (.error e) s

end Action

end Sandbox
