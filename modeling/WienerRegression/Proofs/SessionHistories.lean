import WienerRegression.Proofs.StorageEntries
import WienerRegression.Storage.Session

/-!
# The history of a storage

The state of a storage in a session is told by what has happened to it: the tag is the last one that
was set, and every entry has the value that was written to it last (`steps_last_written`). A refused
call is no part of the history. A restored copy brings its own history back. The windows share the
entries, so a call for the smaller window leaves the later entries with what was written before.
-/

namespace WienerRegression.Storage

/-! ## Events -/

/-- Something that happens to a storage. -/
inductive Event where
  /-- The storage is tagged with a window. -/
  | tagged (window : Window)
  /-- One entry is written. -/
  | entered (output : Output) (position : Nat) (value : Int)
  /-- A call tags the storage with its window and writes its statistics to the first entries. -/
  | answered (window : Window) (written : Outputs)

namespace Event

/-- The tag that an event sets. -/
def tag? : Event → Option Window
  | .tagged window => some window
  | .entered _ _ _ => none
  | .answered window _ => some window

/-- The value that an event writes to an entry. -/
def value? (output : Output) (position : Nat) : Event → Option Int
  | .tagged _ => none
  | .entered other place value => if other = output ∧ place = position then some value else none
  | .answered _ written => (written.entries output)[position]?

end Event

/-- The tag that is set last by a list of events, the oldest first. -/
def lastTag? (events : List Event) : Option Window :=
  events.reverse.findSome? Event.tag?

/-- The value that is written last to an entry by a list of events, the oldest first. -/
def lastValue? (events : List Event) (output : Output) (position : Nat) : Option Int :=
  events.reverse.findSome? (Event.value? output position)

/-- Later events come first in the search for the last tag. -/
theorem lastTag?_append (first second : List Event) :
    lastTag? (first ++ second) = (lastTag? second).or (lastTag? first) := by
  unfold lastTag?
  rw [List.reverse_append, List.findSome?_append]

/-- Later events come first in the search for the last value. -/
theorem lastValue?_append (first second : List Event) (output : Output) (position : Nat) :
    lastValue? (first ++ second) output position =
      (lastValue? second output position).or (lastValue? first output position) := by
  unfold lastValue?
  rw [List.reverse_append, List.findSome?_append]

/-- The first of some events counts if none of the later ones does. -/
theorem lastValue?_cons (event : Event) (events : List Event) (output : Output) (position : Nat) :
    lastValue? (event :: events) output position =
      (lastValue? events output position).or (event.value? output position) := by
  rw [← List.singleton_append, lastValue?_append]
  congr 1
  simp [lastValue?]

/-! ## What the steps of a session do -/

/-- The entries that are written through an output of a window, up to the first whose number is out
of range. -/
def entryEvents (window : Window) (output : Output) (list : List (Nat × Int)) : List Event :=
  (list.takeWhile fun entry ↦ entry.1 < output.length window).map fun entry ↦
    .entered output entry.1 entry.2

/-- The entries of the matrix are reached if all numbers of the vector are in range. -/
def reached (window : Window) (cross auto : List (Nat × Int)) : List (Nat × Int) :=
  if cross.all fun entry ↦ entry.1 < window.taps then auto else []

/-- Writing entries tags the storage and then writes those of the vector and those of the matrix. -/
def writeEvents (window : Window) (cross auto : List (Nat × Int)) : List Event :=
  .tagged window ::
    (entryEvents window .cross cross ++ entryEvents window .auto (reached window cross auto))

/-- A call that is done writes what it would write to fresh outputs; any other does nothing. -/
def callEvents {width : SampleWidth} (call : Call width) : List Event :=
  let run := call.run (.zeros call.window)
  match run.outcome with
  | .done () => [.answered call.window run.outputs]
  | _ => []

/-- The events that the storage in use goes back to, and those that the saved copy goes back to. -/
structure Histories where
  current : List Event
  saved : List Event

namespace Histories

/-- Further events happen to the storage in use. -/
def add (histories : Histories) (events : List Event) : Histories :=
  { histories with current := histories.current ++ events }

/-- A step adds the events of the storage in use, or exchanges the two histories. -/
def step (histories : Histories) : Step → Histories
  | .prepare window => histories.add [.tagged window]
  | .write window cross auto => histories.add (writeEvents window cross auto)
  | .compute _ call => histories.add (callEvents call)
  | .save => { histories with saved := histories.current }
  | .restore => { histories with current := histories.saved }

end Histories

/-- The events that the storage in use goes back to after some steps of a session. -/
def history (list : List Step) : List Event :=
  (list.foldl Histories.step ⟨[], []⟩).current

/-! ## Storages and events -/

/-- Entries after some of them have been written: where there is a new value it replaces the old. -/
def Rewritten (value? : Nat → Option Int) (before after : Array Int) : Prop :=
  ∀ position : Nat,
    after[position]? = before[position]?.map fun entry ↦ (value? position).getD entry

/-- The storage `after` is what some events make of the storage `before`. -/
structure Follows (before after : Storage) (events : List Event) : Prop where
  window_eq : after.window = (lastTag? events).getD before.window
  entries_eq : ∀ output, Rewritten (lastValue? events output) (before.entries output)
    (after.entries output)

/-- Without new values the entries stay. -/
theorem rewritten_of_eq_none {value? : Nat → Option Int} (h : ∀ position, value? position = none)
    (entries : Array Int) : Rewritten value? entries entries := by
  intro position
  simp [h]

namespace Follows

variable {before middle after : Storage} {first second : List Event}

/-- Nothing happens in no events. -/
theorem refl (storage : Storage) : storage.Follows storage [] where
  window_eq := rfl
  entries_eq := fun _ ↦ rewritten_of_eq_none (fun _ ↦ rfl) _

/-- Events happen one after the other. -/
theorem trans (hfirst : before.Follows middle first) (hsecond : middle.Follows after second) :
    before.Follows after (first ++ second) where
  window_eq := by
    rw [hsecond.window_eq, hfirst.window_eq, lastTag?_append, Option.getD_or]
  entries_eq := by
    intro output position
    rw [hsecond.entries_eq output position, hfirst.entries_eq output position, Option.map_map,
      lastValue?_append]
    simp only [Function.comp_def, Option.getD_or]

end Follows

/-- A new tag is one event. -/
theorem follows_retag (storage : Storage) (window : Window) :
    storage.Follows (storage.retag window) [.tagged window] where
  window_eq := rfl
  entries_eq := by
    intro output
    rw [entries_retag]
    exact rewritten_of_eq_none (fun _ ↦ rfl) _

/-- The statistics of a call, with the tag that comes with them, are one event. -/
theorem follows_answered (storage : Storage) (window : Window) (written : Outputs) :
    storage.Follows ((storage.retag window).withOutputs written) [.answered window written] where
  window_eq := rfl
  entries_eq := by
    intro output position
    rw [getElem?_withOutputs, entries_retag]
    simp [lastValue?, Event.value?]

/-- What a call does to a storage depends on the call alone. -/
theorem follows_compute {width : SampleWidth} (storage : Storage) (call : Call width) :
    storage.Follows (storage.compute call).2 (callEvents call) := by
  have hfits := Outputs.fits_zeros call.window
  cases hverdict : call.ownVerdict with
  | error cause =>
      rw [compute_of_error hverdict, callEvents, Call.run_of_fits_error hfits hverdict]
      exact Follows.refl storage
  | ok method =>
      rw [compute_of_ok hverdict, callEvents, Call.run_of_fits_ok hfits hverdict]
      exact storage.follows_answered _ _

/-! ## Writing entries -/

/-- All numbers in range are what lets the writing of entries go on. -/
theorem fst_writeEntries (list : List (Nat × Int)) (entries : Array Int) :
    (writeEntries list entries).1 = list.all fun entry ↦ entry.1 < entries.size := by
  induction list generalizing entries with
  | nil => rfl
  | cons head rest ih =>
      by_cases hindex : head.1 < entries.size
      · simp [writeEntries, hindex, ih]
      · simp [writeEntries, hindex]

/-- A number in range is written before the entries after it. -/
theorem entryEvents_cons_of_lt {window : Window} {output : Output} {index : Nat}
    (h : index < output.length window) (value : Int) (rest : List (Nat × Int)) :
    entryEvents window output ((index, value) :: rest) =
      .entered output index value :: entryEvents window output rest := by
  unfold entryEvents
  rw [List.takeWhile_cons_of_pos (by simpa using h), List.map_cons]

/-- Nothing is written from the first number on that is out of range. -/
theorem entryEvents_cons_of_le {window : Window} {output : Output} {index : Nat}
    (h : output.length window ≤ index) (value : Int) (rest : List (Nat × Int)) :
    entryEvents window output ((index, value) :: rest) = [] := by
  unfold entryEvents
  rw [List.takeWhile_cons_of_neg (by simpa using h), List.map_nil]

/-- Writing entries writes them in order, up to the first whose number is out of range. -/
theorem rewritten_writeEntries {window : Window} {output : Output} (list : List (Nat × Int))
    {entries : Array Int} (hsize : entries.size = output.length window) :
    Rewritten (lastValue? (entryEvents window output list) output) entries
      (writeEntries list entries).2 := by
  induction list generalizing entries with
  | nil => exact rewritten_of_eq_none (fun _ ↦ rfl) entries
  | cons head rest ih =>
      obtain ⟨index, value⟩ := head
      by_cases hindex : index < entries.size
      · have hrest : Rewritten (lastValue? (entryEvents window output rest) output)
            (entries.set index value) (writeEntries rest (entries.set index value)).2 :=
          ih ((Array.size_set hindex).trans hsize)
        intro position
        rw [entryEvents_cons_of_lt (hsize ▸ hindex), lastValue?_cons, writeEntries, dif_pos hindex,
          hrest position, Array.getElem?_set]
        by_cases hposition : index = position
        · subst hposition
          simp [Event.value?, hindex]
        · simp [Event.value?, hposition]
      · rw [entryEvents_cons_of_le (by omega), writeEntries, dif_neg hindex]
        exact rewritten_of_eq_none (fun _ ↦ rfl) entries

/-- No value is written to an entry of the other output. -/
theorem lastValue?_entryEvents_of_ne (window : Window) {output other : Output} (h : other ≠ output)
    (list : List (Nat × Int)) (position : Nat) :
    lastValue? (entryEvents window other list) output position = none := by
  unfold lastValue?
  rw [List.findSome?_eq_none_iff]
  intro event hevent
  obtain ⟨entry, -, rfl⟩ := List.mem_map.mp (List.mem_reverse.mp hevent)
  simp [Event.value?, h]

/-- No value is written beyond the entries of the window. -/
theorem lastValue?_entryEvents_of_le {window : Window} {output : Output} {position : Nat}
    (h : output.length window ≤ position) (list : List (Nat × Int)) :
    lastValue? (entryEvents window output list) output position = none := by
  induction list with
  | nil => rfl
  | cons head rest ih =>
      obtain ⟨index, value⟩ := head
      by_cases hindex : index < output.length window
      · have hne : index ≠ position := by omega
        rw [entryEvents_cons_of_lt hindex, lastValue?_cons, ih]
        simp [Event.value?, hne]
      · rw [entryEvents_cons_of_le (by omega)]
        rfl

/-- Writing entries sets no tag. -/
theorem lastTag?_entryEvents (window : Window) (output : Output) (list : List (Nat × Int)) :
    lastTag? (entryEvents window output list) = none := by
  unfold lastTag?
  rw [List.findSome?_eq_none_iff]
  intro event hevent
  obtain ⟨entry, -, rfl⟩ := List.mem_map.mp (List.mem_reverse.mp hevent)
  rfl

/-- Outputs that a storage has lent and gets back rewritten are what some events have made of them,
if these events set no tag and write no entry that was not lent. -/
theorem follows_withOutputs {storage : Storage} {written : Outputs} {events : List Event}
    (htag : lastTag? events = none)
    (hwritten : ∀ output, Rewritten (lastValue? events output) (storage.outputs.entries output)
      (written.entries output))
    (hbeyond : ∀ (output : Output) (position : Nat), output.length storage.window ≤ position →
      lastValue? events output position = none) :
    storage.Follows (storage.withOutputs written) events where
  window_eq := by
    rw [htag]
    rfl
  entries_eq := by
    intro output position
    rw [getElem?_withOutputs, hwritten output position, getElem?_outputs]
    cases hentry : (storage.entries output)[position]? with
    | none => rfl
    | some entry =>
        by_cases hposition : position < output.length storage.window
        · simp [hposition]
        · simp [hposition, hbeyond output position (by omega)]

/-- The outputs that are lent for writing entries are written one after the other. -/
theorem snd_write (storage : Storage) (window : Window) (cross auto : List (Nat × Int)) :
    (storage.write window cross auto).2 =
      (storage.retag window).withOutputs
        ⟨(writeEntries cross (storage.retag window).outputs.cross).2,
          (writeEntries (reached window cross auto) (storage.retag window).outputs.auto).2⟩ := by
  have hsize : (storage.retag window).outputs.cross.size = window.taps :=
    (storage.retag window).fits_outputs .cross
  have hflag := fst_writeEntries cross (storage.retag window).outputs.cross
  rw [hsize] at hflag
  unfold write reached
  dsimp only
  rw [← hflag]
  cases hcross : writeEntries cross (storage.retag window).outputs.cross with
  | mk inRange written =>
      cases inRange with
      | false => rfl
      | true =>
          cases hauto : writeEntries auto (storage.retag window).outputs.auto with
          | mk inRange matrix => cases inRange <;> simp [hauto]

/-- The entries of the matrix leave the vector alone. -/
theorem lastValue?_cross (window : Window) (cross auto : List (Nat × Int)) (position : Nat) :
    lastValue? (entryEvents window .cross cross ++ entryEvents window .auto auto) .cross position =
      lastValue? (entryEvents window .cross cross) .cross position := by
  rw [lastValue?_append, lastValue?_entryEvents_of_ne window (by decide) auto, Option.none_or]

/-- The entries of the vector leave the matrix alone. -/
theorem lastValue?_auto (window : Window) (cross auto : List (Nat × Int)) (position : Nat) :
    lastValue? (entryEvents window .cross cross ++ entryEvents window .auto auto) .auto position =
      lastValue? (entryEvents window .auto auto) .auto position := by
  rw [lastValue?_append, lastValue?_entryEvents_of_ne window (by decide) cross, Option.or_none]

/-- Writing entries to a storage is a tag and one event for each entry that is written. -/
theorem follows_write (storage : Storage) (window : Window) (cross auto : List (Nat × Int)) :
    storage.Follows (storage.write window cross auto).2 (writeEvents window cross auto) := by
  have hfits := (storage.retag window).fits_outputs
  have hentries : (storage.retag window).Follows (storage.write window cross auto).2
      (entryEvents window .cross cross ++
        entryEvents window .auto (reached window cross auto)) := by
    rw [snd_write]
    refine follows_withOutputs ?_ ?_ ?_
    · rw [lastTag?_append, lastTag?_entryEvents, lastTag?_entryEvents]
      rfl
    · intro output position
      cases output with
      | cross =>
          rw [lastValue?_cross]
          exact rewritten_writeEntries cross (hfits .cross) position
      | auto =>
          rw [lastValue?_auto]
          exact rewritten_writeEntries _ (hfits .auto) position
    · intro output position (hposition : output.length window ≤ position)
      cases output with
      | cross => rw [lastValue?_cross, lastValue?_entryEvents_of_le hposition]
      | auto => rw [lastValue?_auto, lastValue?_entryEvents_of_le hposition]
  exact (storage.follows_retag window).trans hentries

/-! ## Sessions -/

/-- Both storages of a session are what their histories have made of one storage. -/
structure Session.Follows (initial : Storage) (session : Session) (histories : Histories) :
    Prop where
  current : initial.Follows session.current histories.current
  saved : initial.Follows session.saved histories.saved

/-- A step of the session and the same step of the histories keep together. -/
theorem Session.Follows.step {initial : Storage} {session : Session} {histories : Histories}
    (h : session.Follows initial histories) (step : Step) :
    (session.step step).2.Follows initial (histories.step step) := by
  cases step with
  | prepare window => exact ⟨h.current.trans (follows_retag _ window), h.saved⟩
  | write window cross auto => exact ⟨h.current.trans (follows_write _ window cross auto), h.saved⟩
  | compute width call => exact ⟨h.current.trans (follows_compute _ call), h.saved⟩
  | save => exact ⟨h.current, h.current⟩
  | restore => exact ⟨h.saved, h.saved⟩

/-- Hence a session and its histories keep together over any number of steps. -/
theorem Session.Follows.steps {initial : Storage} {session : Session} {histories : Histories}
    (h : session.Follows initial histories) (list : List Step) :
    (session.steps list).Follows initial (list.foldl Histories.step histories) := by
  induction list generalizing session histories with
  | nil => exact h
  | cons step rest ih => exact ih (h.step step)

/-- What the storage in use of a session holds is told by its history. -/
theorem follows_history (window : Window) (list : List Step) :
    (ofWindow window).Follows ((Session.ofWindow window).steps list).current (history list) :=
  (Session.Follows.steps ⟨Follows.refl _, Follows.refl _⟩ list).current

/-- A storage that was fresh with a window holds what some events have left in it: the last tag and
the last value of each entry, zero where there is none. -/
structure Holds (storage : Storage) (window : Window) (events : List Event) : Prop where
  window_eq : storage.window = (lastTag? events).getD window
  cross_eq : ∀ position : Fin Window.luma.taps,
    storage.cross.get position = (lastValue? events .cross position).getD 0
  auto_eq : ∀ position : Fin Window.luma.tapPairs,
    storage.auto.get position = (lastValue? events .auto position).getD 0

/-- Entries that were zero hold the last values written to them. -/
theorem get_of_rewritten {count : Nat} {value? : Nat → Option Int} {entries : Vector Int count}
    (h : Rewritten value? (Array.replicate count 0) entries.toArray) (position : Fin count) :
    entries.get position = (value? position).getD 0 := by
  have hentry := h position
  rw [Array.getElem?_replicate, if_pos position.isLt, Array.getElem?_eq_getElem (by simp)] at hentry
  exact Option.some.inj hentry

/-- Events that happen to a fresh storage leave it as they say. -/
theorem Follows.holds {window : Window} {storage : Storage} {events : List Event}
    (h : (ofWindow window).Follows storage events) : storage.Holds window events where
  window_eq := h.window_eq
  cross_eq := get_of_rewritten (h.entries_eq .cross)
  auto_eq := get_of_rewritten (h.entries_eq .auto)

/-- After any steps of a session the storage has the tag that was set last and in each entry the
value that was written there last, by a write or by a call that was done, counting only what it goes
back to since a copy was restored. A refused call changes neither storage of any session. A call
that is done writes what it writes to fresh outputs and leaves every later entry alone. -/
theorem steps_last_written (window : Window) (list : List Step) :
    ((Session.ofWindow window).steps list).current.Holds window (history list) ∧
    ∀ (session : Session) (width : SampleWidth) (call : Call width),
      (∃ cause, call.run (.zeros call.window) = ⟨.refused cause, .zeros call.window, []⟩ ∧
        session.step (.compute width call) = (.refused cause, session)) ∨
      ∃ written log next, call.run (.zeros call.window) = ⟨.done (), written, log⟩ ∧
        written.Fits call.window ∧
        session.step (.compute width call) = (.done (), next) ∧
        next.saved = session.saved ∧ next.current.window = call.window ∧
        next.current.outputs = written ∧
        ∀ (output : Output) (position : Nat),
          (next.current.entries output)[position]? =
            if position < output.length call.window then (written.entries output)[position]?
            else (session.current.entries output)[position]? := by
  refine ⟨(follows_history window list).holds, ?_⟩
  intro session width call
  have hfits := Outputs.fits_zeros call.window
  cases hverdict : call.ownVerdict with
  | error cause =>
      refine .inl ⟨cause, Call.run_of_fits_error hfits hverdict, ?_⟩
      simp only [Session.step, compute_of_error hverdict]
  | ok method =>
      have hwritten := call.normalEquations.fits_outputs
      refine .inr ⟨_, _, ⟨(session.current.retag call.window).withOutputs _, session.saved⟩,
        Call.run_of_fits_ok hfits hverdict, hwritten, ?_, rfl, rfl, outputs_withOutputs hwritten,
        ?_⟩
      · simp only [Session.step, compute_of_ok hverdict]
      · intro output position
        rw [getElem?_withOutputs_of_fits hwritten, entries_retag]

/-- What happens after a copy was saved is undone when the copy is restored. -/
example : history [.prepare .chroma, .save, .prepare .luma, .restore] = [.tagged .chroma] := rfl

end WienerRegression.Storage
