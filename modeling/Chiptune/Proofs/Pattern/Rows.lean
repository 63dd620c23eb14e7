import Chiptune.Song
import Mathlib.Data.List.Sort

/-!
# Rows hold events

`rowsOf` scatters a list of events over a matrix of cells, and `Pattern.events`
gathers the cells in row order.  This file says what the two do to a single
cell and shows that gathering undoes scattering.

* `cellAt_rowsOf`: a cell of `rowsOf events frames channels` holds the last
  event of the list at its place, whatever order the list is in;
* `mem_events`: `Pattern.events` lists exactly the filled cells;
* `events_rowsOf`: a list that is in row order and inside the matrix comes back
  unchanged.

The last one needs no second induction over the list.  Both sides are strictly
ascending for `Placement.Before`, so it is enough that they have the same
members, and a member is a filled cell on either side.
-/

namespace Chiptune

/-- The cell at a frame and channel; outside the rows there is none. -/
def cellAt (rows : Array Row) (frame channel : ℕ) : Option Cell :=
  rows[frame]?.bind fun row => row[channel]?

/-- What a list of events leaves at a frame and channel: its last event there. -/
def lastAt (events : List Placement) (frame channel : ℕ) : Option Event :=
  (events.reverse.find? fun p => p.frame = frame ∧ p.channel = channel).map (·.event)

/-- Row order: an earlier row, or the same row further to the left. -/
def Placement.Before (p q : Placement) : Prop :=
  p.frame < q.frame ∨ p.frame = q.frame ∧ p.channel < q.channel

theorem Placement.Before.asymm {p q : Placement} (h : p.Before q) : ¬ q.Before p := by
  rintro (hrow | ⟨hrow, hchannel⟩) <;> rcases h with h | ⟨h, h'⟩ <;> omega

instance : Std.Irrefl Placement.Before := ⟨fun _ h => h.asymm h⟩

instance : Std.Antisymm Placement.Before := ⟨fun _ _ h h' => absurd h' h.asymm⟩

/-! ## The last event at a place -/

@[simp] theorem lastAt_nil (frame channel : ℕ) : lastAt [] frame channel = none := rfl

theorem lastAt_cons (p : Placement) (events : List Placement) (frame channel : ℕ) :
    lastAt (p :: events) frame channel =
      (lastAt events frame channel).or
        (if p.frame = frame ∧ p.channel = channel then some p.event else none) := by
  unfold lastAt
  rw [List.reverse_cons, List.find?_append, Option.map_or, List.find?_singleton]
  by_cases hplace : p.frame = frame ∧ p.channel = channel <;> simp [hplace]

/-- In row order no place is met twice, so that the last event is any event. -/
theorem lastAt_eq_some_iff {events : List Placement} (hsorted : events.Pairwise Placement.Before)
    {frame channel : ℕ} {event : Event} :
    lastAt events frame channel = some event ↔ ⟨frame, channel, event⟩ ∈ events := by
  induction events generalizing event with
  | nil => simp
  | cons p rest ih =>
      obtain ⟨hbefore, hrest⟩ := List.pairwise_cons.mp hsorted
      rw [lastAt_cons, List.mem_cons, ← ih hrest]
      by_cases hplace : p.frame = frame ∧ p.channel = channel
      · obtain ⟨rfl, rfl⟩ := hplace
        have hnone : lastAt rest p.frame p.channel = none := by
          rw [Option.eq_none_iff_forall_ne_some]
          intro other hother
          rcases hbefore _ ((ih hrest).mp hother) with h | ⟨_, h⟩ <;> exact lt_irrefl _ h
        obtain ⟨frame, channel, own⟩ := p
        simp [hnone, eq_comm]
      · have hne : (⟨frame, channel, event⟩ : Placement) ≠ p := fun h => hplace (by simp [← h])
        simp [hplace, hne]

/-! ## One event enters one cell -/

@[simp] theorem size_place (rows : Array Row) (p : Placement) :
    (place rows p).size = rows.size := by
  simp [place]

theorem cellAt_place (rows : Array Row) (p : Placement) (frame channel : ℕ) :
    cellAt (place rows p) frame channel = (cellAt rows frame channel).map fun cell =>
      if p.frame = frame ∧ p.channel = channel then some p.event else cell := by
  unfold cellAt place
  rw [Array.getElem?_modify]
  by_cases hframe : p.frame = frame
  · subst hframe
    cases hrow : rows[p.frame]? with
    | none => simp
    | some row =>
        by_cases hchannel : p.channel = channel
        · subst hchannel
          by_cases hinside : p.channel < row.size <;> simp [hinside]
        · simp [hchannel]
  · simp [hframe]

theorem size_foldl_place (events : List Placement) (rows : Array Row) :
    (events.foldl place rows).size = rows.size := by
  induction events generalizing rows with
  | nil => rfl
  | cons p rest ih => rw [List.foldl_cons, ih, size_place]

theorem cellAt_foldl_place (events : List Placement) (rows : Array Row) (frame channel : ℕ) :
    cellAt (events.foldl place rows) frame channel =
      (cellAt rows frame channel).map fun cell => (lastAt events frame channel).or cell := by
  induction events generalizing rows with
  | nil => simp
  | cons p rest ih =>
      rw [List.foldl_cons, ih, cellAt_place, Option.map_map]
      congr 1
      funext cell
      rw [lastAt_cons, Function.comp_apply, Option.or_assoc]
      by_cases hplace : p.frame = frame ∧ p.channel = channel <;> simp [hplace]

/-! ## The matrix of a list of events -/

@[simp] theorem size_rowsOf (events : List Placement) (frames channels : ℕ) :
    (rowsOf events frames channels).size = frames := by
  rw [rowsOf, size_foldl_place, Array.size_replicate]

theorem cellAt_rowsOf (events : List Placement) (frames channels frame channel : ℕ) :
    cellAt (rowsOf events frames channels) frame channel =
      if frame < frames ∧ channel < channels then some (lastAt events frame channel)
      else none := by
  rw [rowsOf, cellAt_foldl_place]
  unfold cellAt
  by_cases hframe : frame < frames <;> by_cases hchannel : channel < channels <;>
    simp [hframe, hchannel]

/-- The size of a row shows in which of its cells exist. -/
theorem size_eq_of_cellAt_isSome {rows : Array Row} {frame : ℕ} {row : Row} {channels : ℕ}
    (hrow : rows[frame]? = some row)
    (hcells : ∀ channel, (cellAt rows frame channel).isSome ↔ channel < channels) :
    row.size = channels := by
  have hsome : ∀ channel, channel < row.size ↔ channel < channels := by
    intro channel
    rw [← hcells channel, cellAt, hrow, Option.bind_some]
    simp
  have hle := (hsome row.size).mpr.mt (lt_irrefl _)
  have hge := (hsome channels).mp.mt (lt_irrefl _)
  omega

theorem size_row_rowsOf {events : List Placement} {frames channels frame : ℕ} {row : Row}
    (hrow : (rowsOf events frames channels)[frame]? = some row) : row.size = channels := by
  have hframe : frame < frames := by
    obtain ⟨h, _⟩ := Array.getElem?_eq_some_iff.mp hrow
    simpa using h
  refine size_eq_of_cellAt_isSome hrow fun channel => ?_
  rw [cellAt_rowsOf]
  by_cases hchannel : channel < channels <;> simp [hframe, hchannel]

/-- Rows are the same if there are as many of them and their cells are. -/
theorem rows_ext {rows rows' : Array Row} (hsize : rows.size = rows'.size)
    (hcells : ∀ k i, k < rows.size → cellAt rows k i = cellAt rows' k i) : rows = rows' := by
  refine Array.ext hsize fun k hk hk' => ?_
  refine Array.ext_getElem? fun i => ?_
  have hcell := hcells k i hk
  unfold cellAt at hcell
  rwa [Array.getElem?_eq_getElem hk, Array.getElem?_eq_getElem hk'] at hcell

/-- Rows that are cut off do not show in those before them. -/
theorem cellAt_extract {rows : Array Row} {count frame : ℕ} (h : frame < count) (channel : ℕ) :
    cellAt (rows.extract 0 count) frame channel = cellAt rows frame channel := by
  unfold cellAt
  rw [Array.getElem?_extract, Nat.sub_zero, Nat.zero_add]
  split
  · rfl
  · rw [Array.getElem?_eq_none (by omega)]

/-! ## The events of a pattern -/

theorem Pattern.mem_rowEvents {frame : ℕ} {row : Row} {p : Placement} :
    p ∈ Pattern.rowEvents frame row ↔
      p.frame = frame ∧ row[p.channel]? = some (some p.event) := by
  unfold Pattern.rowEvents
  rw [List.mem_filterMap]
  constructor
  · rintro ⟨⟨cell, channel⟩, hmem, hp⟩
    rw [List.mk_mem_zipIdx_iff_getElem?, Array.getElem?_toList] at hmem
    obtain ⟨event, rfl, rfl⟩ := Option.map_eq_some_iff.mp hp
    exact ⟨rfl, hmem⟩
  · rintro ⟨rfl, hcell⟩
    refine ⟨(some p.event, p.channel), ?_, rfl⟩
    rw [List.mk_mem_zipIdx_iff_getElem?, Array.getElem?_toList, hcell]

theorem Pattern.mem_events {pattern : Pattern} {p : Placement} :
    p ∈ pattern.events ↔ cellAt pattern.rows p.frame p.channel = some (some p.event) := by
  unfold Pattern.events cellAt
  rw [List.mem_flatMap, Option.bind_eq_some_iff]
  constructor
  · rintro ⟨⟨row, frame⟩, hmem, hp⟩
    obtain ⟨rfl, hcell⟩ := Pattern.mem_rowEvents.mp hp
    rw [List.mk_mem_zipIdx_iff_getElem?, Array.getElem?_toList] at hmem
    exact ⟨row, hmem, hcell⟩
  · rintro ⟨row, hrow, hcell⟩
    refine ⟨(row, p.frame), ?_, Pattern.mem_rowEvents.mpr ⟨rfl, hcell⟩⟩
    rw [List.mk_mem_zipIdx_iff_getElem?, Array.getElem?_toList, hrow]

/-- Numbering a list gives ascending numbers. -/
theorem pairwise_zipIdx {α : Type*} (l : List α) :
    l.zipIdx.Pairwise fun x y => x.2 < y.2 := by
  have hnumbers : (l.zipIdx.map Prod.snd).Pairwise (· < ·) := by
    rw [List.zipIdx_map_snd]
    exact List.pairwise_lt_range'
  exact List.pairwise_map.mp hnumbers

theorem Pattern.pairwise_events (pattern : Pattern) :
    pattern.events.Pairwise Placement.Before := by
  unfold Pattern.events
  rw [List.pairwise_flatMap]
  constructor
  · rintro ⟨row, frame⟩ _
    refine List.pairwise_filterMap.mpr ((pairwise_zipIdx _).imp ?_)
    rintro ⟨cell, channel⟩ ⟨cell', channel'⟩ hlt p hp q hq
    obtain ⟨event, _, rfl⟩ := Option.map_eq_some_iff.mp hp
    obtain ⟨event', _, rfl⟩ := Option.map_eq_some_iff.mp hq
    exact Or.inr ⟨rfl, hlt⟩
  · refine (pairwise_zipIdx _).imp ?_
    rintro ⟨row, frame⟩ ⟨row', frame'⟩ hlt p hp q hq
    obtain ⟨hp, _⟩ := Pattern.mem_rowEvents.mp hp
    obtain ⟨hq, _⟩ := Pattern.mem_rowEvents.mp hq
    exact Or.inl (by rw [hp, hq]; exact hlt)

/-- Gathering undoes scattering, for events in row order that lie inside the matrix. -/
theorem events_rowsOf {events : List Placement} {frames channels : ℕ}
    (hsorted : events.Pairwise Placement.Before)
    (hinside : ∀ p ∈ events, p.frame < frames ∧ p.channel < channels) :
    Pattern.events ⟨rowsOf events frames channels⟩ = events := by
  refine (Pattern.pairwise_events _).eq_of_mem_iff hsorted fun p => ?_
  rw [Pattern.mem_events, cellAt_rowsOf]
  constructor
  · intro h
    split at h
    · exact (lastAt_eq_some_iff hsorted).mp (Option.some.inj h)
    · cases h
  · intro hp
    rw [if_pos (hinside p hp), (lastAt_eq_some_iff hsorted).mpr hp]

theorem Pattern.length_rowEvents (frame : ℕ) (row : Row) :
    (Pattern.rowEvents frame row).length = row.toList.countP Option.isSome := by
  unfold Pattern.rowEvents
  rw [List.length_filterMap_eq_countP]
  conv_rhs => rw [← List.zipIdx_map_fst 0 row.toList, List.countP_map]
  congr 1
  funext ⟨cell, channel⟩
  simp

/-- A pattern has an event for every filled cell. -/
theorem Pattern.length_events (pattern : Pattern) :
    pattern.events.length = (pattern.rows.toList.flatMap Array.toList).countP Option.isSome := by
  unfold Pattern.events
  rw [List.length_flatMap, List.countP_flatMap]
  conv_rhs => rw [← List.zipIdx_map_fst 0 pattern.rows.toList, List.map_map]
  congr 1
  refine List.map_congr_left ?_
  rintro ⟨row, frame⟩ _
  exact Pattern.length_rowEvents frame row

end Chiptune
