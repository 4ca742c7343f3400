/-!
# Outcomes

An operation on samples or statistics ends in one of three ways: it is done, it is refused for a
stated cause, or it is cut short, by an access outside an array or by a demand for an array that is
longer than any can be.
-/

namespace WienerRegression

/-- How an operation ends. -/
inductive Outcome (ε α : Type) where
  /-- The operation has its result. -/
  | done (value : α)
  /-- The operation is refused for a cause. -/
  | refused (cause : ε)
  /-- The operation is cut short. -/
  | outside
  deriving DecidableEq

end WienerRegression
