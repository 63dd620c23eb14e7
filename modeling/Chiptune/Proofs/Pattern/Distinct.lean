import Chiptune.Proofs.Pattern.Blocks
import Mathlib.Data.Finset.Card

/-!
# Every distinct block is kept once

`arrange` answers with patterns and an order list.  That the order list gives the blocks
back is shown with the blocks; here is what the patterns are: distinct, all of them used,
and numbered in the order in which the song comes to them (`arrange_isArrangement`).

Two facts about the loop of `PatternPool.internAll` carry this.  The hash index of an exact
pool has one position for a pattern, so no pattern is stored twice (`Exact.nodup`).  And an
order list that has been built along with a pool names exactly its indices, each of them
first met behind all smaller ones (`PatternPool.NumberedBy`), since an index that has not
been met before is always the next one.
-/

namespace Chiptune

namespace PatternPool

variable {pool : PatternPool} {order : List ℕ}

/-- An exact pool has no pattern twice. -/
theorem Exact.nodup (h : pool.Exact) : pool.patterns.toList.Nodup := by
  rw [List.nodup_iff_getElem?_ne_getElem?]
  intro i j hij hj hsame
  rw [Array.getElem?_toList, Array.getElem?_toList] at hsame
  obtain ⟨p, hp⟩ : ∃ p, pool.patterns[j]? = some p :=
    ⟨_, Array.getElem?_eq_getElem (by simpa using hj)⟩
  have hi := (h p i).mpr (hsame.trans hp)
  rw [(h p j).mpr hp] at hi
  exact absurd (Option.some.inj hi) (Nat.ne_of_gt hij)

/-- An order list names exactly the indices of a pool, and comes to them in ascending
order. -/
structure NumberedBy (pool : PatternPool) (order : List ℕ) : Prop where
  mem_iff : ∀ i, i ∈ order ↔ i < pool.size
  idxOf_lt : ∀ i j, i < j → j < pool.size → order.idxOf i < order.idxOf j

theorem numberedBy_empty : empty.NumberedBy [] where
  mem_iff i := by simp [empty, size]
  idxOf_lt i j _ hj := absurd hj (Nat.not_lt_zero j)

/-- The answer of a pool is an index that it had, or the first one that it did not have. -/
theorem size_intern (hexact : pool.Exact) (p : Pattern) :
    (pool.intern p).2 < pool.size ∧ (pool.intern p).1 = pool ∨
      (pool.intern p).2 = pool.size ∧ (pool.intern p).1.size = pool.size + 1 := by
  unfold intern
  cases hfound : pool.index[p]? with
  | some i =>
      obtain ⟨hlt, -⟩ := Array.getElem?_eq_some_iff.mp ((hexact p i).mp hfound)
      exact .inl ⟨hlt, rfl⟩
  | none => exact .inr ⟨rfl, Array.size_push p⟩

theorem NumberedBy.intern (h : pool.NumberedBy order) (hexact : pool.Exact) (p : Pattern) :
    (pool.intern p).1.NumberedBy (order ++ [(pool.intern p).2]) := by
  rcases size_intern hexact p with ⟨hlt, hpool⟩ | ⟨hnew, hsize⟩
  · -- the index has been met before, so that nothing is first met here
    rw [hpool]
    refine ⟨fun i => ?_, fun i j hij hj => ?_⟩
    · rw [List.mem_append, List.mem_singleton, h.mem_iff]
      exact or_iff_left_of_imp fun hi => hi ▸ hlt
    · rw [List.idxOf_append_of_mem ((h.mem_iff i).mpr (hij.trans hj)),
        List.idxOf_append_of_mem ((h.mem_iff j).mpr hj)]
      exact h.idxOf_lt i j hij hj
  · rw [hnew]
    refine ⟨fun i => ?_, fun i j hij hj => ?_⟩
    · rw [List.mem_append, List.mem_singleton, h.mem_iff, hsize]
      exact Nat.lt_succ_iff_lt_or_eq.symm
    · rw [hsize] at hj
      have hi := (h.mem_iff i).mpr (by omega)
      rw [List.idxOf_append_of_mem hi]
      rcases Nat.lt_succ_iff_lt_or_eq.mp hj with hlt | rfl
      · rw [List.idxOf_append_of_mem ((h.mem_iff j).mpr hlt)]
        exact h.idxOf_lt i j hij hlt
      · have hnotmem : pool.size ∉ order := fun hmem =>
          Nat.lt_irrefl _ ((h.mem_iff pool.size).mp hmem)
        rw [List.idxOf_append_of_notMem hnotmem]
        exact Nat.lt_add_right _ (List.idxOf_lt_length_of_mem hi)

/-- The loop of `internAll` takes one more step for one more pattern. -/
theorem internAll_append_singleton (pool : PatternPool) (ps : List Pattern) (p : Pattern) :
    pool.internAll (ps ++ [p]) =
      (((pool.internAll ps).1.intern p).1,
        (pool.internAll ps).2.push ((pool.internAll ps).1.intern p).2) := by
  unfold internAll
  rw [List.foldl_append]
  rfl

theorem numberedBy_internAll (ps : List Pattern) :
    (empty.internAll ps).1.NumberedBy (empty.internAll ps).2.toList := by
  induction ps using List.reverseRecOn with
  | nil => exact numberedBy_empty
  | append_singleton rest p ih =>
      rw [internAll_append_singleton, Array.toList_push]
      exact ih.intern (internAll_spec rest).1 p

/-- A pool has the patterns that have been interned. -/
theorem mem_patterns_internAll {ps : List Pattern} {p : Pattern} :
    p ∈ (empty.internAll ps).1.patterns.toList ↔ p ∈ ps := by
  have horder := (internAll_spec ps).2
  rw [← List.mem_map_of_injective (Option.some_injective Pattern) (l := ps), ← horder,
    List.mem_map, Array.mem_toList_iff, Array.mem_iff_getElem?]
  constructor
  · rintro ⟨i, hi⟩
    obtain ⟨hlt, -⟩ := Array.getElem?_eq_some_iff.mp hi
    exact ⟨i, ((numberedBy_internAll ps).mem_iff i).mpr hlt, hi⟩
  · rintro ⟨i, -, hi⟩
    exact ⟨i, hi⟩

end PatternPool

/-! ## The sizes of blocks -/

/-- A block is begun at a row that there is, and goes on for as many rows as it may or as
there are left. -/
theorem size_of_getElem?_blocksOf {rows : Array Row} {length k : ℕ} {p : Pattern}
    (h : (blocksOf rows length)[k]? = some p) :
    k * max length 1 < rows.size ∧ p.size = min (max length 1) (rows.size - k * max length 1) := by
  unfold blocksOf at h
  rw [List.getElem?_map, Option.map_eq_some_iff] at h
  obtain ⟨i, hi, rfl⟩ := h
  obtain ⟨hlt, rfl⟩ := List.getElem?_eq_some_iff.mp hi
  rw [List.length_range] at hlt
  rw [List.getElem_range]
  have hpos : 0 < max length 1 := Nat.lt_of_lt_of_le Nat.zero_lt_one (Nat.le_max_right length 1)
  have hbegun := (Nat.lt_div_iff_mul_lt hpos).mp hlt
  refine ⟨by omega, ?_⟩
  unfold Pattern.size
  rw [Array.size_extract]
  omega

/-- A block that another one follows is full. -/
theorem size_of_succ_lt {rows : Array Row} {length k : ℕ} {p : Pattern}
    (h : (blocksOf rows length)[k]? = some p) (hnext : k + 1 < (blocksOf rows length).length) :
    p.size = max length 1 := by
  have hbegun := (size_of_getElem?_blocksOf (List.getElem?_eq_getElem hnext)).1
  rw [Nat.succ_mul] at hbegun
  rw [(size_of_getElem?_blocksOf h).2]
  omega

/-! ## Arrangements -/

/-- Patterns and an order list play some rows in blocks of `length` rows, and keep no block
twice. -/
structure IsArrangement (rows : Array Row) (length : ℕ) (blocks : List Pattern)
    (patterns : Array Pattern) (order : Array ℕ) : Prop where
  /-- Playing the patterns that the order list names gives the rows. -/
  play : order.toList.flatMap (fun i => (patterns[i]?).elim [] fun p => p.rows.toList) =
    rows.toList
  valid : ∀ i ∈ order, i < patterns.size
  /-- Every entry of the order list stands for the block at its place. -/
  names : order.toList.map (patterns[·]?) = blocks.map some
  distinct : patterns.toList.Nodup
  used : ∀ i < patterns.size, i ∈ order
  size_patterns : patterns.size = blocks.toFinset.card
  /-- Smaller indices come first. -/
  first : ∀ i j, i < j → j < patterns.size → order.toList.idxOf i < order.toList.idxOf j
  size_order : order.size = rows.size ⌈/⌉ length
  full : ∀ k p, k + 1 < order.size → blocks[k]? = some p → p.size = length
  last : ∀ p, blocks.getLast? = some p → 1 ≤ p.size ∧ p.size ≤ length

/-- Whatever the rows are, and however they are cut, `arrange` keeps every distinct block
once and plays all of them in their order. -/
theorem arrange_isArrangement (rows : Array Row) (length : ℕ) :
    IsArrangement rows (max length 1) (blocksOf rows length) (arrange rows length).1
      (arrange rows length).2 := by
  have hnames := map_arrange rows length
  have hnumbered := PatternPool.numberedBy_internAll (blocksOf rows length)
  have hdistinct : (arrange rows length).1.toList.Nodup :=
    (PatternPool.internAll_spec (blocksOf rows length)).1.nodup
  have hsize : (arrange rows length).2.size = (blocksOf rows length).length :=
    (size_arrange rows length).trans (length_blocksOf rows length).symm
  refine
    { play := ?play
      valid := fun i => lt_of_mem_arrange
      names := hnames
      distinct := hdistinct
      used := fun i hi => Array.mem_toList_iff.mp ((hnumbered.mem_iff i).mpr hi)
      size_patterns := ?size_patterns
      first := hnumbered.idxOf_lt
      size_order := size_arrange rows length
      full := fun k p hk hp => size_of_succ_lt hp (hsize ▸ hk)
      last := ?last }
  case play =>
    have hplay := congrArg (List.flatMap fun entry => entry.elim [] fun p => p.rows.toList) hnames
    rw [List.flatMap_map, List.flatMap_map] at hplay
    exact hplay.trans (flatMap_rows_blocksOf rows length)
  case size_patterns =>
    have hset : (blocksOf rows length).toFinset = (arrange rows length).1.toList.toFinset := by
      ext p
      rw [List.mem_toFinset, List.mem_toFinset]
      exact PatternPool.mem_patterns_internAll.symm
    rw [hset, List.toFinset_card_of_nodup hdistinct, Array.length_toList]
  case last =>
    intro p hp
    rw [List.getLast?_eq_getElem?] at hp
    obtain ⟨hbegun, hrows⟩ := size_of_getElem?_blocksOf hp
    omega

end Chiptune
