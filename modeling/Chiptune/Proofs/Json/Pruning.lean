import Chiptune.Proofs.Json.Texts

/-!
# Values with members left out

`Json.prune` takes members away from the objects in a value, any set of them, wherever they
are.  A member is told by the way to it, which does not depend on what else is taken away.

It makes no difference whether members are taken away before a value is written or after it
is read (`Json.reread_prune`).
-/

namespace Chiptune.Json

/-- A step on the way to a value inside another one. -/
inductive Step where
  | member (name : String)
  | item (index : ℕ)
  deriving DecidableEq

/-- What remains of a set of ways behind their first step. -/
def behind (removed : List Step → Bool) (step : Step) (path : List Step) : Bool :=
  removed (step :: path)

mutual

/-- The value without the members at the ways that are removed. -/
def prune (removed : List Step → Bool) : Json → Json
  | .array items => .array (pruneItems removed 0 items)
  | .object members => .object (pruneMembers removed members)
  | j => j

/-- Prunes the items of an array from one index on. -/
def pruneItems (removed : List Step → Bool) (index : ℕ) : List Json → List Json
  | [] => []
  | item :: rest =>
    item.prune (behind removed (.item index)) :: pruneItems removed (index + 1) rest

def pruneMembers (removed : List Step → Bool) : List (String × Json) → List (String × Json)
  | [] => []
  | (name, value) :: rest =>
    if removed [.member name] then pruneMembers removed rest
    else (name, value.prune (behind removed (.member name))) :: pruneMembers removed rest

end

variable {removed : List Step → Bool}

theorem eq_false_of_only {allowed : List Step → Prop}
    (h : ∀ path, removed path = true → allowed path) {path : List Step} (hpath : ¬ allowed path) :
    removed path = false :=
  Bool.eq_false_iff.mpr (mt (h path) hpath)

/-- Where nothing is removed, nothing changes. -/
theorem prune_eq_self (h : ∀ step path, removed (step :: path) = false) (j : Json) :
    j.prune removed = j := by
  induction j using induct generalizing removed with
  | array items ih =>
      have hitems : ∀ index, pruneItems removed index items = items := by
        induction items with
        | nil => exact fun _ => rfl
        | cons item rest ihrest =>
            obtain ⟨hitem, hrest⟩ := List.forall_mem_cons.mp ih
            intro index
            have hbehind : ∀ step path, behind removed (.item index) (step :: path) = false :=
              fun step path => h _ _
            rw [pruneItems, hitem hbehind, ihrest hrest]
      rw [prune, hitems]
  | object members ih =>
      have hmembers : pruneMembers removed members = members := by
        induction members with
        | nil => rfl
        | cons member rest ihrest =>
            obtain ⟨hmember, hrest⟩ := List.forall_mem_cons.mp ih
            have hbehind : ∀ step path, behind removed (.member member.1) (step :: path) = false :=
              fun step path => h _ _
            rw [pruneMembers, h, hmember hbehind, ihrest hrest]
            rfl
      rw [prune, hmembers]
  | _ => rfl

/-- No way leads to a member that is removed. -/
def nowhere (_ : List Step) : Bool :=
  false

theorem prune_nowhere (j : Json) : j.prune nowhere = j :=
  prune_eq_self (fun _ _ => rfl) j

/-- What is read for a number has no members. -/
theorem prune_ofNumeral (x : Numeral) : (ofNumeral x).prune removed = ofNumeral x := by
  unfold ofNumeral
  cases x.toInt? with
  | some n => rfl
  | none => cases x.toFloat? <;> rfl

theorem reread_prune (j : Json) : (j.prune removed).reread = j.reread.prune removed := by
  induction j using induct generalizing removed with
  | integer n =>
      show (integer n).reread = _
      rw [reread, ← NumeralText.chars_ofInt, ofChars?_numeral]
      exact (prune_ofNumeral _).symm
  | real x =>
      show (real x).reread = _
      rw [reread]
      obtain hnull | ⟨t, ht⟩ := numbers_render x
      · rw [hnull]
        rfl
      · rw [ht, ofChars?_numeral]
        exact (prune_ofNumeral _).symm
  | array items ih =>
      have hitems : ∀ index, rereadItems (pruneItems removed index items) =
          pruneItems removed index (rereadItems items) := by
        induction items with
        | nil => exact fun _ => rfl
        | cons item rest ihrest =>
            obtain ⟨hitem, hrest⟩ := List.forall_mem_cons.mp ih
            intro index
            rw [pruneItems, rereadItems, rereadItems, pruneItems, hitem, ihrest hrest]
      rw [prune, reread, reread, prune, hitems]
  | object members ih =>
      have hmembers : rereadMembers (pruneMembers removed members) =
          pruneMembers removed (rereadMembers members) := by
        induction members with
        | nil => rfl
        | cons member rest ihrest =>
            obtain ⟨hmember, hrest⟩ := List.forall_mem_cons.mp ih
            rw [pruneMembers, rereadMembers, pruneMembers]
            split
            · exact ihrest hrest
            · rw [rereadMembers, hmember, ihrest hrest]
      rw [prune, reread, reread, prune, hmembers]
  | _ => rfl

/-! ## What pruning keeps -/

theorem representable_prune {j : Json} (h : j.representable = true) :
    (j.prune removed).representable = true := by
  induction j using induct generalizing removed with
  | array items ih =>
      rw [representable] at h
      have hitems : ∀ index, itemsRepresentable (pruneItems removed index items) = true := by
        induction items with
        | nil => exact fun _ => rfl
        | cons item rest ihrest =>
            obtain ⟨hitem, hrest⟩ := List.forall_mem_cons.mp ih
            obtain ⟨hfirst, hothers⟩ := Bool.and_eq_true_iff.mp h
            intro index
            exact Bool.and_eq_true_iff.mpr ⟨hitem hfirst, ihrest hrest hothers (index + 1)⟩
      exact hitems 0
  | object members ih =>
      rw [representable] at h
      have hmembers : membersRepresentable (pruneMembers removed members) = true := by
        induction members with
        | nil => rfl
        | cons member rest ihrest =>
            obtain ⟨hmember, hrest⟩ := List.forall_mem_cons.mp ih
            obtain ⟨hfirst, hothers⟩ := Bool.and_eq_true_iff.mp h
            rw [pruneMembers]
            split
            · exact ihrest hrest hothers
            · exact Bool.and_eq_true_iff.mpr ⟨hmember hfirst, ihrest hrest hothers⟩
      exact hmembers
  | _ => exact h

theorem depth_prune_le (j : Json) : (j.prune removed).depth ≤ j.depth := by
  induction j using induct generalizing removed with
  | array items ih =>
      have hitems : ∀ index, itemsDepth (pruneItems removed index items) ≤ itemsDepth items := by
        induction items with
        | nil => exact fun _ => Nat.le_refl 0
        | cons item rest ihrest =>
            obtain ⟨hitem, hrest⟩ := List.forall_mem_cons.mp ih
            intro index
            exact Nat.max_le.mpr ⟨Nat.le_trans hitem (Nat.le_max_left _ _),
              Nat.le_trans (ihrest hrest (index + 1)) (Nat.le_max_right _ _)⟩
      exact Nat.succ_le_succ (hitems 0)
  | object members ih =>
      have hmembers : membersDepth (pruneMembers removed members) ≤ membersDepth members := by
        induction members with
        | nil => exact Nat.le_refl 0
        | cons member rest ihrest =>
            obtain ⟨hmember, hrest⟩ := List.forall_mem_cons.mp ih
            rw [pruneMembers]
            split
            · exact Nat.le_trans (ihrest hrest) (Nat.le_max_right _ _)
            · exact Nat.max_le.mpr ⟨Nat.le_trans hmember (Nat.le_max_left _ _),
                Nat.le_trans (ihrest hrest) (Nat.le_max_right _ _)⟩
      exact Nat.succ_le_succ hmembers
  | _ => exact Nat.le_refl _

end Chiptune.Json
