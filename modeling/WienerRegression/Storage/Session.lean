import WienerRegression.Storage

/-!
# Sessions with a storage

A session works on one storage and keeps a saved copy of it. Its steps are the operations that
change either of them.
-/

namespace WienerRegression.Storage

/-- A storage in use and the copy that was saved last. -/
structure Session where
  current : Storage
  saved : Storage
  deriving DecidableEq

/-- A step of a session. -/
inductive Step where
  /-- Retag the storage. -/
  | prepare (window : Window)
  /-- Retag the storage and write entries of the vector and of the matrix. -/
  | write (window : Window) (cross auto : List (Nat × Int))
  /-- Answer a call into the storage. -/
  | compute (width : SampleWidth) (call : Call width)
  /-- Save a copy of the storage. -/
  | save
  /-- Replace the storage by the saved copy. -/
  | restore

namespace Session

/-- A session with a fresh storage, which is also its saved copy. -/
def ofWindow (window : Window) : Session :=
  ⟨Storage.ofWindow window, Storage.ofWindow window⟩

/-- Make a step. -/
def step (session : Session) : Step → Outcome StatsError Unit × Session
  | .prepare window => (.done (), { session with current := session.current.retag window })
  | .write window cross auto =>
      let (outcome, current) := session.current.write window cross auto
      (outcome, { session with current := current })
  | .compute _ call =>
      let (outcome, current) := session.current.compute call
      (outcome, { session with current := current })
  | .save => (.done (), { session with saved := session.current })
  | .restore => (.done (), { session with current := session.saved })

/-- The session after a list of steps. -/
def steps (session : Session) (list : List Step) : Session :=
  list.foldl (fun session step ↦ (session.step step).2) session

end Session

end WienerRegression.Storage
