import WienerRegression.Decimal.Positional

/-!
# Check logs

A check log numbers the checks of a test and keeps what each failed check found. A failure is kept
with its number and its cause; `Failure.message` is its text. A log is a success until its first
failure, and the report at the end of a test says which it is and lists the failures.
-/

namespace WienerRegression

/-- A check of computed values against expected ones. -/
inductive Check where
  /-- Two floating-point numbers differ by at most a tolerance. -/
  | values (expected actual tolerance : Float)
  /-- Two statistics are equal. -/
  | entries (expected actual : Int)
  /-- Two lengths or indices are equal. -/
  | sizes (expected actual : Nat)
  /-- Two arrays of statistics are equal. -/
  | arrays (label : String) (expected actual : List Int)
  /-- A condition holds. -/
  | condition (label : String) (holds : Bool)

/-- What a failed check found. -/
inductive Mismatch where
  /-- The numbers differ by more than the tolerance. -/
  | values (expected actual tolerance difference : Float)
  /-- The statistics differ. -/
  | entries (expected actual : Int)
  /-- The lengths or indices differ. -/
  | sizes (expected actual : Nat)
  /-- The arrays differ in length. -/
  | lengths (label : String) (expected actual : Nat)
  /-- The arrays differ, at this index for the first time. -/
  | arrayEntries (label : String) (index : Nat) (expected actual : Int)
  /-- The condition does not hold. -/
  | condition (label : String)

/-- The first index at which two lists differ, counted from `index`, and their entries there. -/
def firstDifference? : Nat → List Int → List Int → Option (Nat × Int × Int)
  | index, expected :: expectedRest, actual :: actualRest =>
      if expected = actual then firstDifference? (index + 1) expectedRest actualRest
      else some (index, expected, actual)
  | _, _, _ => none

/-- What is wrong with a check, if anything is. A difference that is not a number exceeds no
tolerance. -/
def Check.mismatch? : Check → Option Mismatch
  | .values expected actual tolerance =>
      let difference := (expected - actual).abs
      if tolerance < difference then some (.values expected actual tolerance difference) else none
  | .entries expected actual =>
      if expected = actual then none else some (.entries expected actual)
  | .sizes expected actual =>
      if expected = actual then none else some (.sizes expected actual)
  | .arrays label expected actual =>
      if expected.length = actual.length then
        (firstDifference? 0 expected actual).map fun (index, expected, actual) ↦
          .arrayEntries label index expected actual
      else
        some (.lengths label expected.length actual.length)
  | .condition label holds =>
      if holds then none else some (.condition label)

/-- A failed check: its number, counted from one, and what it found. -/
structure Failure where
  number : Nat
  mismatch : Mismatch

/-- The numbers of a failure text are written in full, with a minus sign also for zero. -/
def measurement : Decimal.NumberFormat where
  notANumber := "NaN"
  infinite := "inf"
  minus := "-"
  point := "."
  tieUp := true

/-- A number that is filled up with blanks on its left to a least width. -/
def padLeft (width number : Nat) : String :=
  let digits := toString number
  String.ofList (List.replicate (width - digits.length) ' ') ++ digits

/-- What was checked, as the text of a failure names it. -/
def Mismatch.subject : Mismatch → String
  | .values .. => "value comparison"
  | .entries .. => "value comparison"
  | .sizes .. => "size comparison"
  | .lengths label .. => s!"{label} comparison"
  | .arrayEntries label .. => s!"{label} comparison"
  | .condition label => s!"check '{label}'"

/-- What was found, as the text of a failure reports it. -/
def Mismatch.finding : Mismatch → String
  | .values expected actual tolerance difference =>
      "\ndifference = " ++ Decimal.text measurement difference
        ++ " but allowed delta = " ++ Decimal.text measurement tolerance
        ++ "\nexpected = " ++ Decimal.text measurement expected
        ++ ", actual = " ++ Decimal.text measurement actual
  | .entries expected actual => s!"\nexpected = {expected}, actual = {actual}"
  | .sizes expected actual => s!"\nexpected = {expected}, actual = {actual}"
  | .lengths _ expected actual => s!" - length {expected} vs {actual}"
  | .arrayEntries _ index expected actual =>
      " - [" ++ padLeft 4 index ++ s!"] expected {expected} actual {actual}"
  | .condition _ => ""

/-- The text of a failure of the test with a given name. -/
def Failure.message (failure : Failure) (name : String) : String :=
  s!"Failure in {name}_reg: {failure.mismatch.subject} for index {failure.number}"
    ++ failure.mismatch.finding

/-- The checks of a test so far: how many there were, whether all of them held, and which failed. -/
structure CheckLog where
  name : String
  count : Nat
  success : Bool
  failures : Array Failure

namespace CheckLog

/-- The log of a test before its first check. -/
def ofName (name : String) : CheckLog where
  name := name
  count := 0
  success := true
  failures := #[]

/-- Whether no check has failed so far. -/
def isSuccess (log : CheckLog) : Bool :=
  log.success

/-- The texts of the failures, in the order of the checks. -/
def messages (log : CheckLog) : Array String :=
  log.failures.map (·.message log.name)

/-- Keep what the check that was counted last has found. -/
def fail (log : CheckLog) (mismatch : Mismatch) : CheckLog :=
  { log with
    success := false
    failures := log.failures.push ⟨log.count, mismatch⟩ }

/-- Make a check: whether it holds, and the log after it. -/
def record (log : CheckLog) (check : Check) : Bool × CheckLog :=
  let counted := { log with count := log.count + 1 }
  match check.mismatch? with
  | none => (true, counted)
  | some mismatch => (false, counted.fail mismatch)

/-- The answers of a list of checks, and the log after them. -/
def recordAll (log : CheckLog) : List Check → List Bool × CheckLog
  | [] => ([], log)
  | check :: rest =>
      let (holds, log) := log.record check
      let (answers, log) := log.recordAll rest
      (holds :: answers, log)

/-- Close the log of a test: whether the test is a success, and the lines of its report. -/
def conclude (log : CheckLog) : Bool × List String :=
  let report :=
    if log.success then [s!"SUCCESS: {log.name}_reg"]
    else s!"FAILURE: {log.name}_reg" :: log.messages.toList.map ("  " ++ ·)
  (log.success, report ++ [""])

end CheckLog

end WienerRegression
