import Chiptune.Song
import Mathlib.Algebra.Order.Floor.Div
import Mathlib.Data.List.Basic
import Std.Data.HashMap.Lemmas

/-!
# Blocks come back from the pool

`arrange` cuts rows into blocks and keeps each distinct block once.  This file
shows that playing the order list gives the blocks back, and hence the rows.

The pool is only ever used through two facts.  `PatternPool.Exact` says that
the hash index and the list of patterns hold the same pairs, and
`PatternPool.Extends` that no pattern moves once it has an index.  The first is
kept by `intern` and makes the index it answers with the right one
(`intern_spec`); the second carries the indices of earlier blocks past later
ones (`internAll_spec`).
-/

namespace Chiptune

namespace PatternPool

/-- The hash index knows exactly the stored patterns, each by its position. -/
def Exact (pool : PatternPool) : Prop :=
  ∀ (p : Pattern) (i : ℕ), pool.index[p]? = some i ↔ pool.patterns[i]? = some p

/-- Every pattern of `pool` stands at the same index of `later`. -/
def Extends (pool later : PatternPool) : Prop :=
  ∀ ⦃i : ℕ⦄ ⦃p : Pattern⦄, pool.patterns[i]? = some p → later.patterns[i]? = some p

theorem Extends.refl (pool : PatternPool) : pool.Extends pool := fun _ _ h => h

theorem exact_empty : empty.Exact := by
  intro p i
  simp [empty]

/-- `intern` keeps the pool exact, moves no pattern, and answers with an index
at which the pattern stands. -/
theorem intern_spec {pool : PatternPool} (hexact : pool.Exact) (p : Pattern) :
    (pool.intern p).1.Exact ∧ pool.Extends (pool.intern p).1 ∧
      (pool.intern p).1.patterns[(pool.intern p).2]? = some p := by
  unfold intern
  cases hfound : pool.index[p]? with
  | some i => exact ⟨hexact, Extends.refl pool, (hexact p i).mp hfound⟩
  | none =>
      have hnew : ∀ i : ℕ, pool.patterns[i]? ≠ some p := by
        intro i hi
        rw [(hexact p i).mpr hi] at hfound
        cases hfound
      refine ⟨fun q i => ?_, fun i q hi => ?_, Array.getElem?_push_size⟩
      · rw [Std.HashMap.getElem?_insert, Array.getElem?_push]
        by_cases hpq : p = q
        · subst hpq
          by_cases hi : i = pool.patterns.size
          · simp [hi]
          · simpa [hi, Ne.symm hi] using hnew i
        · by_cases hi : i = pool.patterns.size
          · subst hi
            simpa [hpq] using (hexact q pool.patterns.size).not.mpr (by simp)
          · simpa [hpq, hi] using hexact q i
      · obtain ⟨hlt, _⟩ := Array.getElem?_eq_some_iff.mp hi
        rw [Array.getElem?_push_lt hlt, ← hi, Array.getElem?_eq_getElem hlt]

/-- The loop of `internAll` with an order list already begun. -/
theorem foldl_intern_spec (ps : List Pattern) :
    ∀ (pool : PatternPool) (order : Array ℕ) (seen : List Pattern), pool.Exact →
      order.toList.map (pool.patterns[·]?) = seen.map some →
      let result := ps.foldl
        (fun (pool, order) p => let (pool, i) := pool.intern p; (pool, order.push i))
        (pool, order)
      result.1.Exact ∧
        result.2.toList.map (result.1.patterns[·]?) = (seen ++ ps).map some := by
  induction ps with
  | nil =>
      intro pool order seen hexact horder
      exact ⟨hexact, by simpa using horder⟩
  | cons p rest ih =>
      intro pool order seen hexact horder
      obtain ⟨hnext, hextends, hstands⟩ := intern_spec hexact p
      have hpushed : (order.push (pool.intern p).2).toList.map
          ((pool.intern p).1.patterns[·]?) = (seen ++ [p]).map some := by
        -- earlier entries of the order list still name the patterns they named
        have hkept : order.toList.map ((pool.intern p).1.patterns[·]?) = seen.map some := by
          rw [← horder]
          refine List.map_congr_left fun i hi => ?_
          have hmem : pool.patterns[i]? ∈ seen.map some := by
            rw [← horder]
            exact List.mem_map_of_mem hi
          obtain ⟨q, _, hq⟩ := List.mem_map.mp hmem
          rw [← hq, hextends hq.symm]
        rw [Array.toList_push, List.map_append, List.map_append, hkept]
        simp [hstands]
      have hrest := ih (pool.intern p).1 (order.push (pool.intern p).2) (seen ++ [p]) hnext hpushed
      simpa using hrest

/-- The order list names every pattern that was interned, in turn. -/
theorem internAll_spec (ps : List Pattern) :
    (empty.internAll ps).1.Exact ∧
      (empty.internAll ps).2.toList.map ((empty.internAll ps).1.patterns[·]?) = ps.map some := by
  simpa [internAll] using foldl_intern_spec ps empty #[] [] exact_empty rfl

end PatternPool

/-! ## Cutting and joining -/

theorem flatMap_range_extract {α : Type*} (xs : Array α) (length count : ℕ) :
    (List.range count).flatMap (fun i => (xs.extract (i * length) (i * length + length)).toList) =
      xs.toList.take (count * length) := by
  induction count with
  | zero => simp
  | succ count ih =>
      rw [List.range_succ, List.flatMap_append, ih, List.flatMap_singleton, Nat.succ_mul,
        List.take_add, Array.toList_extract, List.extract_eq_take_drop, Nat.add_sub_cancel_left]

/-- Joining the blocks gives the rows back, also when the last block is short. -/
theorem flatMap_rows_blocksOf (rows : Array Row) (length : ℕ) :
    (blocksOf rows length).flatMap (fun p => p.rows.toList) = rows.toList := by
  unfold blocksOf
  rw [List.flatMap_map, flatMap_range_extract]
  refine List.take_of_length_le ?_
  -- the blocks, counted rounding up, have room for all rows
  have hpos : 0 < max length 1 := by omega
  have hdiv := Nat.div_add_mod (rows.size + max length 1 - 1) (max length 1)
  have hmod := Nat.mod_lt (rows.size + max length 1 - 1) hpos
  rw [Nat.mul_comm] at hdiv
  rw [Array.length_toList]
  omega

theorem map_arrange (rows : Array Row) (length : ℕ) :
    (arrange rows length).2.toList.map ((arrange rows length).1[·]?) =
      (blocksOf rows length).map some :=
  (PatternPool.internAll_spec (blocksOf rows length)).2

theorem length_blocksOf (rows : Array Row) (length : ℕ) :
    (blocksOf rows length).length = rows.size ⌈/⌉ max length 1 := by
  unfold blocksOf
  rw [List.length_map, List.length_range, Nat.ceilDiv_eq_add_pred_div]

/-- There is an entry of the order list for every block that has been begun. -/
theorem size_arrange (rows : Array Row) (length : ℕ) :
    (arrange rows length).2.size = rows.size ⌈/⌉ max length 1 := by
  have hcount := congrArg List.length (map_arrange rows length)
  rw [List.length_map, List.length_map, Array.length_toList] at hcount
  rw [hcount, length_blocksOf]

/-- Every entry of the order list names a pattern. -/
theorem lt_of_mem_arrange {rows : Array Row} {length i : ℕ} (hi : i ∈ (arrange rows length).2) :
    i < (arrange rows length).1.size := by
  have hmem : (arrange rows length).1[i]? ∈ (blocksOf rows length).map some := by
    rw [← map_arrange]
    exact List.mem_map_of_mem (Array.mem_toList_iff.mpr hi)
  obtain ⟨p, _, hp⟩ := List.mem_map.mp hmem
  exact (Array.getElem?_eq_some_iff.mp hp.symm).choose

/-- Playing the order list gives the blocks. -/
theorem filterMap_arrange (rows : Array Row) (length : ℕ) :
    (arrange rows length).2.toList.filterMap ((arrange rows length).1[·]?) =
      blocksOf rows length := by
  have hmap := congrArg (List.filterMap id) (map_arrange rows length)
  rw [List.filterMap_map, List.filterMap_map] at hmap
  simpa [Function.comp_def] using hmap

end Chiptune
