import Chiptune.Event
import Std.Data.HashMap

/-!
# Rows, patterns and songs

A row has one cell per channel, and a pattern is a block of consecutive rows.  A song is played by
going through its order list, each entry of which names a pattern.
-/

namespace Chiptune

/-! ## Rows and patterns -/

/-- What stands in one channel of a row. -/
abbrev Cell := Option Event

/-- One frame: a cell per channel. -/
abbrev Row := Array Cell

/-- A block of consecutive rows. -/
structure Pattern where
  rows : Array Row
  deriving DecidableEq, Hashable

namespace Pattern

def size (p : Pattern) : Nat :=
  p.rows.size

def isEmpty (p : Pattern) : Bool :=
  p.rows.isEmpty

/-- The events of a row in channel order, placed at the given frame. -/
def rowEvents (frame : Nat) (row : Row) : List Placement :=
  row.toList.zipIdx.filterMap fun (cell, channel) =>
    cell.map fun event => ⟨frame, channel, event⟩

/-- The events in row order, each placed at its row of the pattern. -/
def events (p : Pattern) : List Placement :=
  p.rows.toList.zipIdx.flatMap fun (row, frame) => rowEvents frame row

end Pattern

/-- Enters an event into its cell; one outside the rows is left out. -/
def place (rows : Array Row) (p : Placement) : Array Row :=
  rows.modify p.frame fun row => row.setIfInBounds p.channel (some p.event)

/-- `frames` rows of `channels` cells with every event in its cell, the last one where several
meet. -/
def rowsOf (events : List Placement) (frames channels : Nat) : Array Row :=
  events.foldl place (Array.replicate frames (Array.replicate channels none))

/-! ## The pool of distinct patterns

Each distinct pattern is kept once and known by an index, in the order in which patterns were first
seen.  Rows are cut into blocks of equal length, and the order list names the pattern of each. -/

/-- Distinct patterns in the order of their arrival, and where each of them stands. -/
structure PatternPool where
  patterns : Array Pattern
  index : Std.HashMap Pattern Nat

namespace PatternPool

def empty : PatternPool :=
  ⟨#[], ∅⟩

def size (pool : PatternPool) : Nat :=
  pool.patterns.size

def isEmpty (pool : PatternPool) : Bool :=
  pool.patterns.isEmpty

/-- The index of a pattern, which joins the pool if it has not been seen. -/
def intern (pool : PatternPool) (p : Pattern) : PatternPool × Nat :=
  match pool.index[p]? with
  | some i => (pool, i)
  | none =>
    let i := pool.patterns.size
    (⟨pool.patterns.push p, pool.index.insert p i⟩, i)

/-- The indices of patterns, in order, and the pool with all of them in it. -/
def internAll (pool : PatternPool) (ps : List Pattern) : PatternPool × Array Nat :=
  ps.foldl (fun (pool, order) p => let (pool, i) := pool.intern p; (pool, order.push i))
    (pool, #[])

end PatternPool

/-- Cuts rows into blocks of `length` rows, a length of zero standing for one; the last block keeps
what is left. -/
def blocksOf (rows : Array Row) (length : Nat) : List Pattern :=
  let length := max length 1
  (List.range ((rows.size + length - 1) / length)).map fun i =>
    ⟨rows.extract (i * length) (i * length + length)⟩

/-- The distinct blocks of some rows, and the order in which they play. -/
def arrange (rows : Array Row) (length : Nat) : Array Pattern × Array Nat :=
  let (pool, order) := PatternPool.empty.internAll (blocksOf rows length)
  (pool.patterns, order)

/-! ## Songs -/

/-- One song of a music file. -/
structure Subsong where
  /-- Its place in the file. -/
  index : Nat
  /-- The cells of a row. -/
  channels : Nat
  /-- Distinct patterns. -/
  patterns : Array Pattern
  /-- Which patterns are played, in order. -/
  order : Array Nat
  deriving DecidableEq

namespace Subsong

def isEmpty (s : Subsong) : Bool :=
  s.order.isEmpty

/-- The patterns as they are played; an entry of the order list that names none is passed over. -/
def played (s : Subsong) : List Pattern :=
  s.order.toList.filterMap (s.patterns[·]?)

/-- The rows as they are played. -/
def rows (s : Subsong) : List Row :=
  s.played.flatMap (·.rows.toList)

/-- The count of rows that are played. -/
def rowCount (s : Subsong) : Nat :=
  s.played.foldr (fun p count => p.size + count) 0

theorem length_rows (s : Subsong) : s.rows.length = s.rowCount := by
  unfold rows rowCount
  induction s.played with
  | nil => rfl
  | cons p rest ih =>
    rw [List.flatMap_cons, List.length_append, ih]
    rfl

end Subsong

/-- The songs of a music file, in order. -/
structure Song where
  subsongs : List Subsong
  deriving DecidableEq

end Chiptune
