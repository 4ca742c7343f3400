/-!
# Updating entries in place

The statistics are accumulated in vectors of entries that a loop updates one at a time. The lemma
`get_update` says what an update changes and what it leaves alone. A loop over the numbers below
`n` keeps an invariant that each of its passes keeps (`foldl_invariant`), and if each pass changes
the entries whose turn it is, the loop changes every entry at most once (`get_foldl`).
-/

namespace WienerRegression.Entries

variable {α : Type} {m n : Nat}

/-- Replace one entry by a function of it. -/
@[inline] def update (entries : Vector α n) (position : Fin n) (change : α → α) : Vector α n :=
  ⟨entries.toArray.modify position.val change, by simp⟩

/-- Add a term to one entry. -/
@[inline] def add (entries : Vector Int n) (position : Fin n) (term : Int) : Vector Int n :=
  update entries position (· + term)

/-- A vector of values has the value of each position. -/
theorem get_ofFn (value : Fin n → α) (entry : Fin n) :
    (Vector.ofFn value).get entry = value entry :=
  Vector.getElem_ofFn entry.isLt

/-- Mapping a vector maps its entries. -/
theorem get_map {β : Type} (change : α → β) (entries : Vector α n) (entry : Fin n) :
    (entries.map change).get entry = change (entries.get entry) :=
  Vector.getElem_map change entry.isLt

/-- Combining two vectors combines their entries. -/
theorem get_zipWith (combine : α → α → α) (left right : Vector α n) (entry : Fin n) :
    (left.zipWith combine right).get entry = combine (left.get entry) (right.get entry) :=
  Vector.getElem_zipWith entry.isLt

/-- An update changes the entry at its position and no other. -/
theorem get_update (entries : Vector α n) (position entry : Fin n) (change : α → α) :
    (update entries position change).get entry =
      if position = entry then change (entries.get entry) else entries.get entry := by
  rcases entries with ⟨entries, rfl⟩
  simp only [update, Vector.get, Array.getElem_modify, Fin.ext_iff]
  rfl

/-- Setting an entry replaces the entry at its position and no other. -/
theorem get_set (entries : Vector α n) (position entry : Fin n) (value : α) :
    (entries.set position value).get entry =
      if position = entry then value else entries.get entry := by
  simp only [Fin.ext_iff]
  exact Vector.getElem_set position.isLt entry.isLt

/-- A property of the number of passes made and of the state reached holds after a loop if it
holds before the loop and each pass keeps it. -/
theorem foldl_invariant {pass : α → Fin n → α} {start : α} (motive : Nat → α → Prop)
    (hstart : motive 0 start)
    (hpass : ∀ (i : Fin n) (state : α), motive i.val state → motive (i.val + 1) (pass state i)) :
    motive n (Fin.foldl n pass start) := by
  induction n with
  | zero => exact hstart
  | succ n ih =>
      rw [Fin.foldl_succ_last]
      apply hpass (Fin.last n)
      exact ih fun i state hstate ↦ hpass i.castSucc state hstate

/-- A part of the state that each pass computes from that part alone is the result of a loop over
the part. -/
theorem map_foldl {β : Type} (part : α → β) {pass : α → Fin n → α} {step : β → Fin n → β}
    (hpass : ∀ (state : α) (i : Fin n), part (pass state i) = step (part state) i) (start : α) :
    part (Fin.foldl n pass start) = Fin.foldl n step (part start) := by
  induction n with
  | zero => rfl
  | succ n ih =>
      rw [Fin.foldl_succ_last, Fin.foldl_succ_last, hpass]
      exact congrArg (step · (Fin.last n)) (ih fun state i ↦ hpass state i.castSucc)

/-- If each pass of a loop changes exactly the entries whose turn it is, then the loop changes every
entry, once. -/
theorem get_foldl {pass : Vector α m → Fin n → Vector α m} (turn : Fin m → Fin n)
    (change : Fin m → α → α)
    (hpass : ∀ (i : Fin n) (entries : Vector α m) (entry : Fin m),
      (pass entries i).get entry =
        if turn entry = i then change entry (entries.get entry) else entries.get entry)
    (entries : Vector α m) (entry : Fin m) :
    (Fin.foldl n pass entries).get entry = change entry (entries.get entry) := by
  have hloop : (Fin.foldl n pass entries).get entry =
      if (turn entry).val < n then change entry (entries.get entry) else entries.get entry := by
    refine foldl_invariant (fun passes (state : Vector α m) ↦ state.get entry =
      if (turn entry).val < passes then change entry (entries.get entry)
      else entries.get entry) rfl ?_
    intro i state hstate
    rw [hpass, hstate]
    by_cases hturn : turn entry = i
    · rw [if_pos hturn, if_neg (by omega), if_pos (by omega)]
    · rw [if_neg hturn]
      by_cases hlt : (turn entry).val < i.val
      · rw [if_pos hlt, if_pos (by omega)]
      · rw [if_neg hlt, if_neg (by omega)]
  rw [hloop, if_pos (turn entry).isLt]

/-- A loop that updates the entries one after the other changes each of them once. -/
theorem get_foldl_update (change : Fin n → α → α) (entries : Vector α n) (entry : Fin n) :
    (Fin.foldl n (fun entries i ↦ update entries i (change i)) entries).get entry =
      change entry (entries.get entry) := by
  refine get_foldl id change ?_ entries entry
  intro i entries entry
  rw [get_update]
  by_cases hentry : i = entry
  · subst hentry
    rfl
  · rw [if_neg hentry, if_neg fun h ↦ hentry h.symm]

end WienerRegression.Entries
