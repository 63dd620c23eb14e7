import Chiptune.Proofs.Pattern.Distinct

/-!
# What a pool remembers

A pool holds every pattern twice: in the list of patterns, and as a key of the hash index.
Whatever patterns are interned, in whatever order, the two agree, and the indices that the
pool gives away number the distinct patterns as they arrive (`internAll_remembers`).

Interning may be broken off anywhere and taken up again (`internAll_append`), so an answer
is that of the pool which the patterns before it have led to (`order_internAll`).  That pool
has each of them once, which makes the first answer for a pattern the number of distinct
patterns before it.
-/

namespace Chiptune

namespace PatternPool

variable {ps : List Pattern} {p q : Pattern} {i j k : ℕ}

/-! ## Calls one after the other -/

/-- Interning goes on where it was broken off. -/
theorem internAll_append (pool : PatternPool) (ps more : List Pattern) :
    pool.internAll (ps ++ more) =
      (((pool.internAll ps).1.internAll more).1,
        (pool.internAll ps).2 ++ ((pool.internAll ps).1.internAll more).2) := by
  induction more using List.reverseRecOn with
  | nil => simp [internAll]
  | append_singleton more p ih =>
      rw [← List.append_assoc, internAll_append_singleton, internAll_append_singleton, ih,
        Array.append_push]

theorem size_order_internAll (pool : PatternPool) (ps : List Pattern) :
    (pool.internAll ps).2.size = ps.length := by
  induction ps using List.reverseRecOn with
  | nil => rfl
  | append_singleton rest p ih =>
      rw [internAll_append_singleton, Array.size_push, ih, List.length_append,
        List.length_singleton]

/-- An answer is that of the pool which the patterns before it have led to. -/
theorem order_internAll (pool : PatternPool) (ps more : List Pattern) (p : Pattern) :
    (pool.internAll (ps ++ p :: more)).2[ps.length]? =
      some ((pool.internAll ps).1.intern p).2 := by
  have hsize := size_order_internAll pool ps
  rw [List.append_cons, internAll_append, internAll_append_singleton,
    Array.getElem?_append_left (by rw [Array.size_push]; omega), ← hsize,
    Array.getElem?_push_size]

/-- The pattern that a call was about stands at the index that answered it. -/
theorem patterns_internAll (hp : ps[k]? = some p) (hi : (empty.internAll ps).2[k]? = some i) :
    (empty.internAll ps).1.patterns[i]? = some p := by
  have hnames := congrArg (·[k]?) (internAll_spec ps).2
  simp only [List.getElem?_map, Array.getElem?_toList, hp, hi, Option.map_some] at hnames
  exact Option.some.inj hnames

/-! ## What there is to remember -/

/-- A pattern that is in the pool is found at its place, and the pool stays as it is. -/
theorem intern_of_stored {pool : PatternPool} (hexact : pool.Exact)
    (hp : pool.patterns[i]? = some p) : pool.intern p = (pool, i) := by
  unfold intern
  rw [(hexact p i).mpr hp]

/-- A pattern that is not in the pool is given the next index. -/
theorem intern_of_new {pool : PatternPool} (hexact : pool.Exact)
    (hp : p ∉ pool.patterns.toList) : (pool.intern p).2 = pool.size := by
  rcases size_intern hexact p with ⟨-, hpool⟩ | ⟨hnew, -⟩
  · have hstands := (intern_spec hexact p).2.2
    rw [hpool] at hstands
    exact absurd (Array.mem_toList_iff.mpr (Array.mem_of_getElem? hstands)) hp
  · exact hnew

/-- There are as many patterns in a pool as distinct ones have been interned. -/
theorem size_internAll (ps : List Pattern) :
    (empty.internAll ps).1.size = ps.toFinset.card := by
  have hset : ps.toFinset = (empty.internAll ps).1.patterns.toList.toFinset := by
    ext p
    rw [List.mem_toFinset, List.mem_toFinset]
    exact mem_patterns_internAll.symm
  rw [hset, List.toFinset_card_of_nodup (internAll_spec ps).1.nodup, Array.length_toList]
  rfl

/-- The first call about a pattern is answered with the number of distinct patterns before. -/
theorem order_of_first {before after : List Pattern} (hp : p ∉ before) :
    (empty.internAll (before ++ p :: after)).2[before.length]? = some before.toFinset.card := by
  rw [order_internAll, intern_of_new (internAll_spec before).1 (mem_patterns_internAll.not.mpr hp),
    size_internAll]

/-- Calls have the same answer exactly when they are about the same pattern. -/
theorem order_eq_iff (hp : ps[j]? = some p) (hq : ps[k]? = some q)
    (hi : (empty.internAll ps).2[j]? = some i) {i' : ℕ}
    (hi' : (empty.internAll ps).2[k]? = some i') : i = i' ↔ p = q := by
  have hstands := patterns_internAll hp hi
  have hstands' := patterns_internAll hq hi'
  constructor
  · rintro rfl
    exact Option.some.inj (hstands.symm.trans hstands')
  · rintro rfl
    have hexact := (internAll_spec ps).1
    exact Option.some.inj (((hexact p i).mpr hstands).symm.trans ((hexact p i').mpr hstands'))

/-- What a pool holds, and what it has answered, once patterns have been interned in turn. -/
structure Remembers (ps : List Pattern) (pool : PatternPool) (order : Array ℕ) : Prop where
  /-- The hash index has the stored patterns, each with its position, and no others. -/
  index_iff : ∀ (p : Pattern) (i : ℕ), pool.index[p]? = some i ↔ pool.patterns[i]? = some p
  /-- Every call is answered. -/
  size_order : order.size = ps.length
  /-- Equal patterns, and only these, have the same index. -/
  same_iff : ∀ (j k : ℕ) p q i i', ps[j]? = some p → ps[k]? = some q → order[j]? = some i →
    order[k]? = some i' → (i = i' ↔ p = q)
  /-- The index of a pattern counts the distinct patterns that came before it first did. -/
  first : ∀ (k : ℕ) p i, ps[k]? = some p → order[k]? = some i →
    i = (ps.takeWhile (· ≠ p)).toFinset.card
  /-- A pattern that has been seen changes nothing. -/
  seen : ∀ p ∈ ps, (pool.intern p).1 = pool
  /-- An index names the same pattern whatever is interned later. -/
  lasting : ∀ more (k : ℕ) p i, ps[k]? = some p → order[k]? = some i →
    (pool.internAll more).1.patterns[i]? = some p
  size_pool : pool.size = ps.toFinset.card

/-- A pool remembers all patterns that have been interned since it was empty, however many
there are and whatever they look like. -/
theorem internAll_remembers (ps : List Pattern) :
    Remembers ps (empty.internAll ps).1 (empty.internAll ps).2 := by
  have hexact := (internAll_spec ps).1
  refine
    { index_iff := hexact
      size_order := size_order_internAll empty ps
      same_iff := fun j k p q i i' hp hq hi hi' => order_eq_iff hp hq hi hi'
      first := ?first
      seen := ?seen
      lasting := ?lasting
      size_pool := size_internAll ps }
  case first =>
    intro k p i hp hi
    obtain ⟨before, after, rfl, hbefore⟩ :=
      List.eq_append_cons_of_mem (List.mem_of_getElem? hp)
    have htaken : (before ++ p :: after).takeWhile (· ≠ p) = before := by
      have hothers : ∀ q ∈ before, decide (q ≠ p) = true := fun q hq =>
        decide_eq_true (ne_of_mem_of_not_mem hq hbefore)
      rw [List.takeWhile_append_of_pos hothers, List.takeWhile_cons_of_neg (by simp),
        List.append_nil]
    -- the first call about the same pattern has had the same answer
    rw [htaken]
    exact (order_eq_iff hp (by simp) hi (order_of_first hbefore)).mpr rfl
  case seen =>
    intro p hp
    obtain ⟨i, hi⟩ := Array.mem_iff_getElem?.mp
      (Array.mem_toList_iff.mp (mem_patterns_internAll.mpr hp))
    rw [intern_of_stored hexact hi]
  case lasting =>
    intro more k p i hp hi
    have hk := (List.getElem?_eq_some_iff.mp hp).choose
    have hp' : (ps ++ more)[k]? = some p := by rw [List.getElem?_append_left hk, hp]
    have hi' : (empty.internAll (ps ++ more)).2[k]? = some i := by
      rw [internAll_append, Array.getElem?_append_left (by rw [size_order_internAll]; exact hk), hi]
    have hlater := patterns_internAll hp' hi'
    rwa [internAll_append] at hlater

end PatternPool

end Chiptune
