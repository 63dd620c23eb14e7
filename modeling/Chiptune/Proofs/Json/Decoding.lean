import Chiptune.Json.Decode
import Chiptune.Proofs.Json.Pruning
import Mathlib.Data.List.Nodup

/-!
# Fields of pruned records

A record whose fields have different names is read field by field: every field is what is
left of its member, or is missing if the member was taken away (`fields?_prune`).  A field
that may be missing is its default then (`optional?_ite`).
-/

namespace Chiptune.Json

/-! ## Scalars -/

theorem toNatBelow?_nat {n bound : ℕ} (h : n < bound) : toNatBelow? bound (.nat n) = some n := by
  exact if_pos ⟨Int.natCast_nonneg n, Int.ofNat_lt.mpr h⟩

theorem toNat?_nat {n : ℕ} (h : n < UInt64.size) : toNat? (.nat n) = some n :=
  toNatBelow?_nat h

theorem toUInt8?_nat (n : UInt8) : toUInt8? (.nat n.toNat) = some n := by
  rw [toUInt8?, toNatBelow?_nat n.toNat_lt_size, Option.map_some, UInt8.ofNat_toNat]

theorem toUInt16?_nat (n : UInt16) : toUInt16? (.nat n.toNat) = some n := by
  rw [toUInt16?, toNatBelow?_nat n.toNat_lt_size, Option.map_some, UInt16.ofNat_toNat]

theorem toUInt32?_nat (n : UInt32) : toUInt32? (.nat n.toNat) = some n := by
  rw [toUInt32?, toNatBelow?_nat n.toNat_lt_size, Option.map_some, UInt32.ofNat_toNat]

theorem toUInt64?_nat (n : UInt64) : toUInt64? (.nat n.toNat) = some n := by
  rw [toUInt64?, toNatBelow?_nat n.toNat_lt_size, Option.map_some, UInt64.ofNat_toNat]

theorem toInt16?_integer (n : Int16) : toInt16? (.integer n.toInt) = some n := by
  have hlow : Int16.minValue.toInt ≤ n.toInt := n.minValue_le_toInt
  have hhigh : n.toInt ≤ Int16.maxValue.toInt := n.toInt_le
  rw [toInt16?, if_pos ⟨hlow, hhigh⟩, Int16.ofInt_toInt]

theorem toFloat?_double {x : Float} (h : x.isFinite = true) : toFloat? (.double x) = some x := by
  rw [double, if_pos h]
  rfl

/-- Numbers stay whatever is taken away. -/
theorem prune_nat (removed : List Step → Bool) (n : ℕ) : (nat n).prune removed = .nat n :=
  rfl

theorem toFloat?_prune (removed : List Step → Bool) (j : Json) :
    (j.prune removed).toFloat? = j.toFloat? := by
  cases j <;> rfl

/-! ## Lists -/

variable {α : Type} {removed : List Step → Bool}

theorem toList?_map {f : Json → Option α} {encode : α → Json} {l : List α}
    (h : ∀ a ∈ l, f (encode a) = some a) : toList? f (.array (l.map encode)) = some l := by
  show (l.map encode).mapM f = some l
  induction l with
  | nil => rfl
  | cons a rest ih =>
      obtain ⟨ha, hrest⟩ := List.forall_mem_cons.mp h
      rw [List.map_cons, List.mapM_cons, ha, ih hrest]
      rfl

/-- Items that are changed by their index when they are pruned. -/
theorem toList?_prune {f : Json → Option α} {encode : α → Json} {change : ℕ → α → α}
    (h : ∀ i a, f ((encode a).prune (behind removed (.item i))) = some (change i a)) (l : List α) :
    toList? f ((Json.array (l.map encode)).prune removed) = some (l.mapIdx change) := by
  have hitems : ∀ index, (pruneItems removed index (l.map encode)).mapM f =
      some (l.mapIdx fun i => change (index + i)) := by
    induction l with
    | nil => exact fun _ => rfl
    | cons a rest ih =>
        intro index
        have hlater : (fun i => change (index + 1 + i)) = fun i => change (index + (i + 1)) := by
          funext i
          rw [Nat.add_right_comm, Nat.add_assoc]
        rw [List.map_cons, pruneItems, List.mapM_cons, h, ih (index + 1), List.mapIdx_cons, hlater]
        rfl
  refine (hitems 0).trans ?_
  simp only [Nat.zero_add]

/-! ## Records -/

variable {members : List (String × Json)} {name : String}

theorem filter_eq_nil_of_notMem (h : name ∉ members.map Prod.fst) :
    members.filter (·.1 == name) = [] := by
  refine List.filter_eq_nil_iff.mpr fun member hmember heq => h ?_
  exact List.mem_map.mpr ⟨member, hmember, beq_iff_eq.mp heq⟩

theorem member?_of_notMem (h : name ∉ members.map Prod.fst) : member? members name = some none := by
  rw [member?, filter_eq_nil_of_notMem h]

theorem member?_cons_self (h : name ∉ members.map Prod.fst) (value : Json) :
    member? ((name, value) :: members) name = some (some value) := by
  rw [member?, List.filter_cons_of_pos (by simp), filter_eq_nil_of_notMem h]

theorem member?_cons_of_ne {member : String × Json} (h : member.1 ≠ name) :
    member? (member :: members) name = member? members name := by
  rw [member?, member?, List.filter_cons_of_neg (by simpa using h)]

theorem notMem_pruneMembers (h : name ∉ members.map Prod.fst) :
    name ∉ (pruneMembers removed members).map Prod.fst := by
  induction members with
  | nil => exact h
  | cons member rest ih =>
      obtain ⟨hne, hrest⟩ := not_or.mp (mt List.mem_cons.mpr h)
      rw [pruneMembers]
      split
      · exact ih hrest
      · exact fun hmem => (List.mem_cons.mp hmem).elim hne (ih hrest)

/-- The value of a member, if it is there. -/
def kept (removed : List Step → Bool) (member : String × Json) : Option Json :=
  if removed [.member member.1] then none
  else some (member.2.prune (behind removed (.member member.1)))

theorem member?_pruneMembers (hnodup : (members.map Prod.fst).Nodup) {member : String × Json}
    (hmember : member ∈ members) :
    member? (pruneMembers removed members) member.1 = some (kept removed member) := by
  induction members with
  | nil => cases hmember
  | cons first rest ih =>
      obtain ⟨hfirst, hrest⟩ := List.nodup_cons.mp hnodup
      rw [pruneMembers]
      cases hmember with
      | head =>
          unfold kept
          split
          · exact member?_of_notMem (notMem_pruneMembers hfirst)
          · exact member?_cons_self (notMem_pruneMembers hfirst) _
      | tail _ hmember =>
          have hne : first.1 ≠ member.1 := fun heq =>
            hfirst (heq ▸ List.mem_map_of_mem hmember)
          split
          · exact ih hrest hmember
          · refine (member?_cons_of_ne ?_).trans (ih hrest hmember)
            exact hne

/-- A record from which members were taken away lacks just these fields. -/
theorem fields?_prune {names : List String} (hnames : members.map Prod.fst = names)
    (hnodup : names.Nodup) :
    fields? names ((Json.object members).prune removed) = some (members.map (kept removed)) := by
  subst hnames
  have hmapM : ∀ l : List (String × Json),
      (∀ member ∈ l, member? (pruneMembers removed members) member.1 = some (kept removed member)) →
        (l.map Prod.fst).mapM (member? (pruneMembers removed members)) =
          some (l.map (kept removed)) := by
    intro l hl
    induction l with
    | nil => rfl
    | cons member rest ih =>
        obtain ⟨hmember, hrest⟩ := List.forall_mem_cons.mp hl
        rw [List.map_cons, List.mapM_cons, hmember, ih hrest]
        rfl
  exact hmapM members fun member hmember => member?_pruneMembers hnodup hmember

theorem fields?_object {names : List String} (hnames : members.map Prod.fst = names)
    (hnodup : names.Nodup) :
    fields? names (.object members) = some (members.map fun member => some member.2) := by
  have hkept : kept nowhere = fun member => some member.2 := by
    funext member
    exact congrArg some (prune_eq_self (fun _ _ => rfl) member.2)
  rw [← prune_nowhere (.object members), fields?_prune hnames hnodup, hkept]

/-- A member that is no field is passed over. -/
theorem fields?_cons {names : List String} (h : name ∉ names) (value : Json) :
    fields? names (.object ((name, value) :: members)) = fields? names (.object members) := by
  show names.mapM _ = names.mapM _
  induction names with
  | nil => rfl
  | cons first rest ih =>
      obtain ⟨hne, hrest⟩ := not_or.mp (mt List.mem_cons.mpr h)
      rw [List.mapM_cons, List.mapM_cons, member?_cons_of_ne hne, ih hrest]

theorem required?_some (f : Json → Option α) (j : Json) : required? f (some j) = f j := by
  rw [required?, Option.bind_some]

/-- A field that is taken away has its default. -/
theorem optional?_ite (f : Json → Option α) (default : α) (missing : Bool) (j : Json) :
    optional? f default (if missing then none else some j) =
      if missing then some default else f j := by
  cases missing <;> rfl

end Chiptune.Json
