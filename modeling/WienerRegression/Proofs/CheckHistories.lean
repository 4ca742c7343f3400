import Mathlib.Data.List.Forall2
import Mathlib.Tactic.Common
import WienerRegression.CheckLog

/-!
# The history of a check log

A check log keeps a count, a flag and a list of failures, and each check changes all that it has to
change (`Logs.record`). So after any checks the count is their number, the flag says whether all of
them held, and the list has one text for each check that did not, in the order of the checks and
with its number (`recordAll_logs`). A check of two arrays that differ finds the first difference
(`firstDiffer_of_firstDifference?`).
-/

namespace WienerRegression

/-! ## What a check finds -/

/-- Two lists have different entries at an index, and equal ones at every smaller index. -/
structure FirstDiffer (expected actual : List Int) (index : Nat) (left right : Int) : Prop where
  left_eq : expected[index]? = some left
  right_eq : actual[index]? = some right
  ne : left ≠ right
  agree : ∀ earlier < index, expected[earlier]? = actual[earlier]?

/-- An equal entry in front of two lists moves their first difference. -/
theorem FirstDiffer.cons {expected actual : List Int} {index : Nat} {left right : Int}
    (h : FirstDiffer expected actual index left right) (entry : Int) :
    FirstDiffer (entry :: expected) (entry :: actual) (index + 1) left right := by
  refine ⟨h.left_eq, h.right_eq, h.ne, ?_⟩
  intro earlier hearlier
  cases earlier with
  | zero => rfl
  | succ earlier => exact h.agree earlier (Nat.lt_of_succ_lt_succ hearlier)

/-- The difference that is found is the first one. -/
theorem firstDiffer_of_firstDifference? {expected actual : List Int} {start index : Nat}
    {left right : Int} (h : firstDifference? start expected actual = some (index, left, right)) :
    ∃ offset, index = start + offset ∧ FirstDiffer expected actual offset left right := by
  induction expected generalizing actual start with
  | nil => cases h
  | cons first expected ih =>
      cases actual with
      | nil => cases h
      | cons second actual =>
          rw [firstDifference?] at h
          split_ifs at h with hequal
          · obtain ⟨offset, rfl, hdiffer⟩ := ih h
            exact ⟨offset + 1, by omega, hequal ▸ hdiffer.cons first⟩
          · cases h
            exact ⟨0, rfl, rfl, rfl, hequal, nofun⟩

/-- No difference is found exactly in equal lists, if their lengths are equal. -/
theorem firstDifference?_eq_none_iff {expected actual : List Int}
    (hlength : expected.length = actual.length) (start : Nat) :
    firstDifference? start expected actual = none ↔ expected = actual := by
  induction expected generalizing actual start with
  | nil =>
      cases actual with
      | nil => exact iff_of_true rfl rfl
      | cons second actual => cases hlength
  | cons first expected ih =>
      cases actual with
      | nil => cases hlength
      | cons second actual =>
          rw [firstDifference?, List.cons.injEq]
          split_ifs with hequal
          · rw [ih (Nat.succ.inj hlength)]
            exact ⟨fun hrest ↦ ⟨hequal, hrest⟩, And.right⟩
          · exact iff_of_false not_false fun hboth ↦ hequal hboth.1

namespace Check

/-- What a check requires of its operands. -/
def Holds : Check → Prop
  | .values expected actual tolerance => ¬ tolerance < (expected - actual).abs
  | .entries expected actual => expected = actual
  | .sizes expected actual => expected = actual
  | .arrays _ expected actual => expected = actual
  | .condition _ holds => holds = true

/-- What the text of a failure of the check names. -/
def subject : Check → String
  | .values .. => "value comparison"
  | .entries .. => "value comparison"
  | .sizes .. => "size comparison"
  | .arrays label .. => s!"{label} comparison"
  | .condition label _ => s!"check '{label}'"

/-- Nothing is wrong with a check exactly when it holds. -/
theorem mismatch?_eq_none_iff (check : Check) : check.mismatch? = none ↔ check.Holds := by
  cases check with
  | values expected actual tolerance =>
      simp only [mismatch?, Holds]
      split_ifs with hexceeds
      · exact iff_of_false not_false (not_not_intro hexceeds)
      · exact iff_of_true rfl hexceeds
  | entries expected actual => simp [mismatch?, Holds]
  | sizes expected actual => simp [mismatch?, Holds]
  | arrays label expected actual =>
      simp only [mismatch?, Holds]
      split_ifs with hlength
      · rw [Option.map_eq_none_iff, firstDifference?_eq_none_iff hlength]
      · exact iff_of_false not_false fun hequal ↦ hlength (congrArg List.length hequal)
  | condition label holds => simp [mismatch?, Holds]

/-- What is wrong with a check is named after the check. -/
theorem subject_eq {check : Check} {mismatch : Mismatch} (h : check.mismatch? = some mismatch) :
    mismatch.subject = check.subject := by
  cases check with
  | arrays label expected actual =>
      simp only [mismatch?] at h
      split_ifs at h
      · obtain ⟨difference, -, rfl⟩ := Option.map_eq_some_iff.mp h
        rfl
      · cases h
        rfl
  | _ =>
      simp only [mismatch?] at h
      split_ifs at h
      cases h
      rfl

/-- What is wrong with a check of two arrays of one length is their first difference. -/
theorem firstDiffer_of_mismatch? {label : String} {expected actual : List Int} {mismatch : Mismatch}
    (hlength : expected.length = actual.length)
    (h : (arrays label expected actual).mismatch? = some mismatch) :
    ∃ index left right, FirstDiffer expected actual index left right ∧
      mismatch = .arrayEntries label index left right := by
  rw [mismatch?, if_pos hlength] at h
  obtain ⟨⟨index, left, right⟩, hfirst, rfl⟩ := Option.map_eq_some_iff.mp h
  obtain ⟨offset, hindex, hdiffer⟩ := firstDiffer_of_firstDifference? hfirst
  rw [Nat.zero_add] at hindex
  exact ⟨index, left, right, hindex ▸ hdiffer, rfl⟩

end Check

/-! ## The text of a failure -/

/-- A text does not start with a digit, so a number in front of it is not lengthened. -/
def EndsNumber (text : String) : Prop :=
  ∀ char ∈ text.toList.head?, char.isDigit = false

/-- The start of a text decides whether a number in front of it is lengthened. -/
theorem endsNumber_append {opening : String}
    (hopening : opening.toList.head?.any (fun char ↦ !char.isDigit) = true) (rest : String) :
    EndsNumber (opening ++ rest) := by
  obtain ⟨first, hfirst, hdigit⟩ := (Option.any_eq_true _ _).mp hopening
  intro char hchar
  rw [String.toList_append, List.head?_append, hfirst] at hchar
  cases hchar
  simpa using hdigit

/-- What was found does not lengthen the number in front of it. -/
theorem Mismatch.endsNumber_finding (mismatch : Mismatch) : EndsNumber mismatch.finding := by
  unfold finding
  cases mismatch with
  | condition label => exact nofun
  | _ =>
      simp only [String.append_assoc]
      exact endsNumber_append (by decide) _

/-- A number that is filled up is blanks followed by all its digits. -/
theorem padLeft_eq (width number : Nat) :
    padLeft width number =
      String.ofList (List.replicate (width - (toString number).length) ' ') ++ toString number :=
  rfl

/-- A text tells that a check of a test failed: it starts with what was checked and with the number
of the check. For two arrays of one length, it gives the first index at which they differ, behind
blanks if the index has fewer than four digits, and their entries there. -/
structure Tells (name : String) (failed : Check × Nat) (text : String) : Prop where
  heading : ∃ finding, EndsNumber finding ∧
    text = s!"Failure in {name}_reg: {failed.1.subject} for index {failed.2}" ++ finding
  difference : ∀ label expected actual, failed.1 = .arrays label expected actual →
    expected.length = actual.length →
      ∃ index left right, FirstDiffer expected actual index left right ∧
        text = s!"Failure in {name}_reg: {failed.1.subject} for index {failed.2}"
          ++ (" - [" ++ (String.ofList (List.replicate (4 - (toString index).length) ' ')
            ++ toString index) ++ s!"] expected {left} actual {right}")

/-- The text of what is wrong with a check tells of the check. -/
theorem tells_message (name : String) {check : Check} {mismatch : Mismatch}
    (h : check.mismatch? = some mismatch) (number : Nat) :
    Tells name (check, number) (Failure.message ⟨number, mismatch⟩ name) := by
  unfold Failure.message
  rw [Check.subject_eq h]
  constructor
  case heading => exact ⟨mismatch.finding, mismatch.endsNumber_finding, rfl⟩
  case difference =>
    rintro label expected actual rfl hlength
    obtain ⟨index, left, right, hdiffer, rfl⟩ := Check.firstDiffer_of_mismatch? hlength h
    refine ⟨index, left, right, hdiffer, ?_⟩
    rw [← padLeft_eq]
    rfl

/-! ## The log after some checks -/

/-- The checks whose answer is that they do not hold, with their numbers, counted from one. -/
def failedChecks (checks : List Check) (answers : List Bool) : List (Check × Nat) :=
  ((checks.zip answers).zipIdx 1).filterMap fun ((check, holds), number) ↦
    if holds then none else some (check, number)

/-- A further check is the last of the failed ones, if it failed. -/
theorem failedChecks_append {checks : List Check} {answers : List Bool}
    (hlength : checks.length = answers.length) (check : Check) (holds : Bool) :
    failedChecks (checks ++ [check]) (answers ++ [holds]) =
      failedChecks checks answers ++ if holds then [] else [(check, checks.length + 1)] := by
  have hzip : (checks.zip answers).length = checks.length := by
    rw [List.length_zip, ← hlength, Nat.min_self]
  unfold failedChecks
  rw [List.zip_append hlength, List.zipIdx_append, List.filterMap_append, hzip, Nat.add_comm 1]
  cases holds <;> rfl

namespace CheckLog

/-- What a log keeps of the checks of a test and of their answers. -/
structure Logs (log : CheckLog) (name : String) (checks : List Check) (answers : List Bool) :
    Prop where
  name_eq : log.name = name
  count_eq : log.count = checks.length
  answered : List.Forall₂ (fun check holds ↦ holds = true ↔ check.Holds) checks answers
  texts : List.Forall₂ (Tells name) (failedChecks checks answers) log.messages.toList
  success_iff : log.success = true ↔ ∀ holds ∈ answers, holds = true
  success_iff_empty : log.success = true ↔ log.messages = #[]

/-- A new log keeps nothing. -/
theorem logs_ofName (name : String) : (ofName name).Logs name [] [] where
  name_eq := rfl
  count_eq := rfl
  answered := .nil
  texts := by simp [failedChecks, messages, ofName]
  success_iff := iff_of_true rfl nofun
  success_iff_empty := by simp [messages, ofName]

variable {log : CheckLog} {name : String} {checks : List Check} {answers : List Bool}

/-- A check that holds is only counted. -/
theorem record_of_none {check : Check} (h : check.mismatch? = none) :
    log.record check = (true, { log with count := log.count + 1 }) := by
  simp only [record, h]

/-- A check that does not hold is counted, ends the success of the log, and adds a failure. -/
theorem record_of_some {check : Check} {mismatch : Mismatch}
    (h : check.mismatch? = some mismatch) :
    log.record check =
      (false, { log with
        count := log.count + 1
        success := false
        failures := log.failures.push ⟨log.count + 1, mismatch⟩ }) := by
  simp only [record, fail, h]

/-- The answer of a check is whether it holds. -/
theorem fst_record_iff (log : CheckLog) (check : Check) :
    (log.record check).1 = true ↔ check.Holds := by
  rw [← check.mismatch?_eq_none_iff]
  cases h : check.mismatch? with
  | none => simp [record_of_none h]
  | some mismatch => simp [record_of_some h]

/-- A check adds at most one text, behind those of earlier checks. -/
theorem messages_prefix_record (log : CheckLog) (check : Check) :
    log.messages.toList <+: (log.record check).2.messages.toList := by
  cases h : check.mismatch? with
  | none =>
      rw [record_of_none h]
      exact List.prefix_rfl
  | some mismatch =>
      rw [record_of_some h]
      simp [messages]

/-- A check keeps the log in step with the checks and their answers. -/
theorem Logs.record (h : log.Logs name checks answers) (check : Check) :
    (log.record check).2.Logs name (checks ++ [check]) (answers ++ [(log.record check).1]) := by
  have hanswer := log.fst_record_iff check
  have hlength := h.answered.length_eq
  have hcount : log.count + 1 = (checks ++ [check]).length := by
    rw [h.count_eq, List.length_append, List.length_singleton]
  have hanswered := List.rel_append h.answered (.cons hanswer .nil)
  cases hmismatch : check.mismatch? with
  | none =>
      rw [record_of_none hmismatch] at hanswered ⊢
      refine ⟨h.name_eq, hcount, hanswered, ?_, ?_, h.success_iff_empty⟩
      · rw [failedChecks_append hlength, if_pos rfl, List.append_nil]
        exact h.texts
      · simp [h.success_iff]
  | some mismatch =>
      rw [record_of_some hmismatch] at hanswered ⊢
      refine ⟨h.name_eq, hcount, hanswered, ?_, ?_, ?_⟩
      · have htells := tells_message name hmismatch (checks.length + 1)
        rw [failedChecks_append hlength]
        simpa [messages, h.name_eq, h.count_eq] using List.rel_append h.texts (.cons htells .nil)
      · simp
      · simp [messages]

/-- Hence any further checks do. -/
theorem Logs.recordAll (h : log.Logs name checks answers) (further : List Check) :
    (log.recordAll further).2.Logs name (checks ++ further)
      (answers ++ (log.recordAll further).1) := by
  induction further generalizing log checks answers with
  | nil => simpa [CheckLog.recordAll] using h
  | cons check rest ih =>
      have hrest := ih (h.record check)
      rwa [List.append_assoc, List.append_assoc] at hrest

/-- The report at the end of a test lists the texts of all failures. -/
theorem Logs.mem_report (h : log.Logs name checks answers) {text : String}
    (htext : text ∈ log.messages) : "  " ++ text ∈ log.conclude.2 := by
  have hfailed : ¬ log.success = true := by
    intro hsuccess
    rw [h.success_iff_empty.mp hsuccess] at htext
    exact absurd htext (Array.not_mem_empty text)
  have hlisted : "  " ++ text ∈ log.messages.toList.map ("  " ++ ·) :=
    List.mem_map.mpr ⟨text, htext.val, rfl⟩
  unfold conclude
  rw [if_neg hfailed]
  exact List.mem_append_left _ (List.mem_cons_of_mem _ hlisted)

/-- The log after checks and further ones is the log after the further checks on the log between. -/
theorem snd_recordAll_append (log : CheckLog) (earlier later : List Check) :
    (log.recordAll (earlier ++ later)).2 =
      ((log.recordAll earlier).2.recordAll later).2 := by
  induction earlier generalizing log with
  | nil => rfl
  | cons check rest ih => exact ih _

/-- Further checks leave the texts of earlier ones in front. -/
theorem messages_prefix_recordAll (log : CheckLog) (further : List Check) :
    log.messages.toList <+: (log.recordAll further).2.messages.toList := by
  induction further generalizing log with
  | nil => exact List.prefix_rfl
  | cons check rest ih => exact (log.messages_prefix_record check).trans (ih _)

/-- After any checks, the log of a test has counted each of them, and their answers say which of
them hold. It has one text for each check that does not, in the order of the checks and with its
number, and the texts are those that it had after the first checks, followed by others. It is a
success, and is concluded as one, exactly when all checks hold. The report of its conclusion lists
all texts. -/
theorem recordAll_history (name : String) (checks : List Check) :
    ∃ answers log, (ofName name).recordAll checks = (answers, log) ∧
      log.count = checks.length ∧
      List.Forall₂ (fun check holds ↦ holds = true ↔ check.Holds) checks answers ∧
      List.Forall₂ (Tells name) (failedChecks checks answers) log.messages.toList ∧
      (∀ earlier, ((ofName name).recordAll (checks.take earlier)).2.messages.toList <+:
        log.messages.toList) ∧
      (log.isSuccess = true ↔ ∀ holds ∈ answers, holds = true) ∧
      (log.conclude.1 = true ↔ ∀ holds ∈ answers, holds = true) ∧
      (∀ text ∈ log.messages, "  " ++ text ∈ log.conclude.2) := by
  have hlogs := (logs_ofName name).recordAll checks
  rw [List.nil_append, List.nil_append] at hlogs
  refine ⟨_, _, rfl, hlogs.count_eq, hlogs.answered, hlogs.texts, ?_, hlogs.success_iff,
    hlogs.success_iff, fun _ ↦ hlogs.mem_report⟩
  intro earlier
  have hrest := messages_prefix_recordAll ((ofName name).recordAll (checks.take earlier)).2
    (checks.drop earlier)
  rwa [← snd_recordAll_append, List.take_append_drop] at hrest

example :
    ((ofName "stats").recordAll [.sizes 3 3, .arrays "M" [1, 2, 3] [1, 5, 4]]).2.messages =
      #["Failure in stats_reg: M comparison for index 2 - [   1] expected 2 actual 5"] := by
  decide +kernel

end CheckLog

end WienerRegression
