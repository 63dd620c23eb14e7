import Chiptune.Proofs.Pattern.Rows

/-!
# Rows and events are two views of a matrix

A matrix of cells can be given as rows, or as the list of its events in row order.
`rowsOf` goes from events to rows and `Pattern.events` from rows to events, and each undoes
the other (`rows_events_inverse`).

That gathering undoes scattering is `events_rowsOf`.  The other direction compares cell by
cell: a filled cell is an event of the pattern, and since the events are in row order it is
the last one at its place (`rowsOf_events`).

A song is played pattern by pattern.  Its events are those of the patterns, each offset by
the rows that have been played before, and they are the events of all the rows in one piece
(`events_joined`).
-/

namespace Chiptune

/-- There are `frames` rows of `channels` cells each. -/
def IsMatrix (rows : Array Row) (frames channels : ℕ) : Prop :=
  rows.size = frames ∧ ∀ row ∈ rows, row.size = channels

instance (rows : Array Row) (frames channels : ℕ) : Decidable (IsMatrix rows frames channels) :=
  inferInstanceAs (Decidable (_ ∧ _))

/-- The event has a cell in a matrix of this size. -/
def Placement.Inside (p : Placement) (frames channels : ℕ) : Prop :=
  p.frame < frames ∧ p.channel < channels

instance (p : Placement) (frames channels : ℕ) : Decidable (p.Inside frames channels) :=
  inferInstanceAs (Decidable (_ ∧ _))

instance : DecidableRel Placement.Before := fun _ _ => inferInstanceAs (Decidable (_ ∨ _))

/-- The same event some rows later. -/
def Placement.later (rows : ℕ) (p : Placement) : Placement :=
  { p with frame := rows + p.frame }

/-- All rows of patterns that are played in order, as one pattern. -/
def joined (patterns : List Pattern) : Pattern :=
  ⟨(patterns.flatMap fun p => p.rows.toList).toArray⟩

/-- How many rows are played before the pattern at a position of a list. -/
def rowsBefore (patterns : List Pattern) (position : ℕ) : ℕ :=
  (joined (patterns.take position)).size

/-- The events of patterns that are played in order, each offset by the rows before its
pattern. -/
def playedEvents (patterns : List Pattern) : List Placement :=
  patterns.zipIdx.flatMap fun (p, position) =>
    p.events.map (Placement.later (rowsBefore patterns position))

variable {rows : Array Row} {frames channels : ℕ}

/-! ## Scattering undoes gathering -/

theorem isMatrix_rowsOf (events : List Placement) (frames channels : ℕ) :
    IsMatrix (rowsOf events frames channels) frames channels := by
  refine ⟨size_rowsOf events frames channels, fun row hrow => ?_⟩
  obtain ⟨frame, hframe⟩ := Array.mem_iff_getElem?.mp hrow
  exact size_row_rowsOf hframe

theorem IsMatrix.cellAt_isSome_iff (h : IsMatrix rows frames channels) {frame channel : ℕ} :
    (cellAt rows frame channel).isSome ↔ frame < frames ∧ channel < channels := by
  obtain ⟨rfl, hrows⟩ := h
  unfold cellAt
  cases hrow : rows[frame]? with
  | none =>
      have hle : rows.size ≤ frame := Array.getElem?_eq_none_iff.mp hrow
      simp [Nat.not_lt.mpr hle]
  | some row =>
      obtain ⟨hlt, -⟩ := Array.getElem?_eq_some_iff.mp hrow
      have hsize : row.size = channels := hrows row (Array.mem_of_getElem? hrow)
      simp [hlt, hsize]

/-- Scattering undoes gathering, whatever stands in the cells of a matrix. -/
theorem rowsOf_events (h : IsMatrix rows frames channels) :
    rowsOf (Pattern.events ⟨rows⟩) frames channels = rows := by
  refine rows_ext ((size_rowsOf _ _ _).trans h.1.symm) fun frame channel _ => ?_
  rw [cellAt_rowsOf]
  by_cases hinside : frame < frames ∧ channel < channels
  · obtain ⟨cell, hcell⟩ := Option.isSome_iff_exists.mp (h.cellAt_isSome_iff.mpr hinside)
    -- the events are in row order, so that the last one at a place is the only one there
    have hlast : lastAt (Pattern.events ⟨rows⟩) frame channel = cell := by
      apply Option.ext
      intro event
      rw [lastAt_eq_some_iff (Pattern.pairwise_events _), Pattern.mem_events, hcell,
        Option.some_inj]
    rw [if_pos hinside, hlast, hcell]
  · have hnone : cellAt rows frame channel = none := by
      rw [← Option.not_isSome_iff_eq_none, h.cellAt_isSome_iff]
      exact hinside
    rw [if_neg hinside, hnone]

/-! ## Events without a cell -/

theorem lastAt_filter {keep : Placement → Bool} {frame channel : ℕ}
    (hkeep : ∀ p : Placement, p.frame = frame → p.channel = channel → keep p = true)
    (events : List Placement) :
    lastAt (events.filter keep) frame channel = lastAt events frame channel := by
  unfold lastAt
  rw [← List.filter_reverse, List.find?_filter]
  congr 2
  funext p
  rw [decide_eq_decide]
  constructor
  · intro h
    exact of_decide_eq_true h.2
  · intro h
    exact ⟨hkeep p h.1 h.2, decide_eq_true h⟩

/-- Events outside the matrix leave no trace in it. -/
theorem rowsOf_filter_inside (events : List Placement) (frames channels : ℕ) :
    rowsOf (events.filter fun p => p.Inside frames channels) frames channels =
      rowsOf events frames channels := by
  refine rows_ext (by rw [size_rowsOf, size_rowsOf]) fun frame channel _ => ?_
  rw [cellAt_rowsOf, cellAt_rowsOf]
  by_cases hinside : frame < frames ∧ channel < channels
  · rw [if_pos hinside, if_pos hinside, lastAt_filter]
    rintro p rfl rfl
    exact decide_eq_true hinside
  · rw [if_neg hinside, if_neg hinside]

/-! ## Patterns in a row -/

theorem Placement.later_later (rows more : ℕ) (p : Placement) :
    (p.later more).later rows = p.later (rows + more) := by
  simp only [Placement.later, Nat.add_assoc]

theorem Pattern.rowEvents_add (rows frame : ℕ) (row : Row) :
    Pattern.rowEvents (rows + frame) row =
      (Pattern.rowEvents frame row).map (Placement.later rows) := by
  unfold Pattern.rowEvents
  rw [List.map_filterMap]
  congr 1
  funext ⟨cell, channel⟩
  rw [Option.map_map]
  rfl

/-- The rows of a second pattern are numbered from the end of the first one. -/
theorem Pattern.events_append (first second : List Row) :
    Pattern.events ⟨(first ++ second).toArray⟩ =
      Pattern.events ⟨first.toArray⟩ ++
        (Pattern.events ⟨second.toArray⟩).map (Placement.later first.length) := by
  unfold Pattern.events
  rw [List.zipIdx_append, List.flatMap_append, Nat.zero_add,
    List.zipIdx_eq_map_add (i := first.length), List.flatMap_map, List.map_flatMap]
  simp only [Pattern.rowEvents_add]

theorem rowsBefore_cons_succ (p : Pattern) (rest : List Pattern) (position : ℕ) :
    rowsBefore (p :: rest) (position + 1) = p.size + rowsBefore rest position := by
  simp [rowsBefore, joined, Pattern.size]

theorem playedEvents_cons (p : Pattern) (rest : List Pattern) :
    playedEvents (p :: rest) =
      p.events ++ (playedEvents rest).map (Placement.later p.size) := by
  have hfirst : p.events.map (Placement.later (rowsBefore (p :: rest) 0)) = p.events := by
    have hid : Placement.later (rowsBefore (p :: rest) 0) = id := by
      funext q
      simp [Placement.later, rowsBefore, joined, Pattern.size]
    rw [hid, List.map_id]
  have hlater : ∀ position, Placement.later (rowsBefore (p :: rest) (position + 1)) =
      Placement.later p.size ∘ Placement.later (rowsBefore rest position) := by
    intro position
    funext q
    rw [rowsBefore_cons_succ, Function.comp_apply, Placement.later_later]
  unfold playedEvents
  rw [List.zipIdx_cons, List.flatMap_cons, Nat.zero_add, List.zipIdx_succ, List.flatMap_map,
    List.map_flatMap]
  simp only [hfirst, hlater, List.map_map]

/-- The events of patterns that are played in order are those of their rows in one piece. -/
theorem events_joined (patterns : List Pattern) :
    (joined patterns).events = playedEvents patterns := by
  induction patterns with
  | nil => rfl
  | cons p rest ih =>
      calc (joined (p :: rest)).events
          = Pattern.events ⟨(p.rows.toList ++ rest.flatMap fun q => q.rows.toList).toArray⟩ := rfl
        _ = p.events ++ (joined rest).events.map (Placement.later p.size) :=
            Pattern.events_append _ _
        _ = p.events ++ (playedEvents rest).map (Placement.later p.size) := by rw [ih]
        _ = playedEvents (p :: rest) := (playedEvents_cons p rest).symm

/-! ## Rows and events -/

/-- Every cell of the rows of some events holds the last event at its place, and events
outside do not matter.  Events in row order, the rows of a matrix, and patterns that are
played in order come back from the other view. -/
theorem rows_events_inverse (events : List Placement) (rows : Array Row)
    (patterns : List Pattern) (frames channels : ℕ) :
    IsMatrix (rowsOf events frames channels) frames channels ∧
      (∀ frame < frames, ∀ channel < channels,
        cellAt (rowsOf events frames channels) frame channel =
          some (lastAt events frame channel)) ∧
      rowsOf (events.filter fun p => p.Inside frames channels) frames channels =
        rowsOf events frames channels ∧
      (events.Pairwise Placement.Before → (∀ p ∈ events, p.Inside frames channels) →
        Pattern.events ⟨rowsOf events frames channels⟩ = events) ∧
      (IsMatrix rows frames channels →
        rowsOf (Pattern.events ⟨rows⟩) frames channels = rows) ∧
      (joined patterns).events = playedEvents patterns := by
  refine ⟨isMatrix_rowsOf events frames channels, ?_, rowsOf_filter_inside events frames channels,
    events_rowsOf, rowsOf_events, events_joined patterns⟩
  intro frame hframe channel hchannel
  rw [cellAt_rowsOf, if_pos ⟨hframe, hchannel⟩]

/-- A note that ends one row later, on the second of two channels. -/
theorem rows_events_inverse_shortNote :
    let events : List Placement := [⟨0, 1, .noteOn 60⟩, ⟨1, 1, .noteOff⟩]
    let rows : Array Row := #[#[none, some (.noteOn 60)], #[none, some .noteOff]]
    (events.Pairwise Placement.Before ∧ ∀ p ∈ events, p.Inside 2 2) ∧ IsMatrix rows 2 2 ∧
      Pattern.events ⟨rowsOf events 2 2⟩ = events ∧ rowsOf (Pattern.events ⟨rows⟩) 2 2 = rows := by
  intro events rows
  have hevents : events.Pairwise Placement.Before ∧ ∀ p ∈ events, p.Inside 2 2 := by decide
  have hrows : IsMatrix rows 2 2 := by decide
  obtain ⟨-, -, -, hback, hforth, -⟩ := rows_events_inverse events rows [] 2 2
  exact ⟨hevents, hrows, hback hevents.1 hevents.2, hforth hrows⟩

end Chiptune
