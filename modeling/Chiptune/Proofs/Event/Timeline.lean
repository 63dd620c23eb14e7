import Chiptune.Proofs.Pattern.Rows

/-!
# What a timeline lists

A timeline compares every snapshot with the one before it, the first with a
baseline.  For snapshots of a single chip, it lists a placement exactly where a
channel changed from one snapshot to the next (`mem_timeline`), and it does so
in row order when the frames ascend (`pairwise_timeline`).  So at most one event
stands at a place, and the place tells which two snapshots it came from.
-/

namespace Chiptune

/-- What a channel was doing, for a channel that the chip has. -/
def Snapshot.decode (s : Snapshot) (channel : ℕ) : Channel :=
  s.chip.family.channel s.bank.registers channel s.chip.clock

theorem Snapshot.channel_eq_ok {s : Snapshot} {channel : ℕ}
    (h : channel < s.chip.family.channelCount) : s.channel channel = .ok (s.decode channel) := by
  unfold Snapshot.channel Chip.channel Snapshot.decode
  rw [if_pos h]

theorem Snapshot.channel_eq_error {s : Snapshot} {channel : ℕ}
    (h : ¬ channel < s.chip.family.channelCount) :
    s.channel channel = .error ⟨channel, s.chip.family.channelCount⟩ := by
  unfold Snapshot.channel Chip.channel
  rw [if_neg h]

variable {tuning : Tuning} {chip : Chip}

/-! ## Two snapshots -/

theorem Snapshot.mem_events {before now : Snapshot} (hbefore : before.chip = chip)
    (hnow : now.chip = chip) {p : Placement} :
    p ∈ before.events tuning now ↔
      p.frame = now.frame ∧ p.channel < chip.family.channelCount ∧
        Event.between tuning (before.decode p.channel) (now.decode p.channel) =
          some p.event := by
  unfold Snapshot.events
  rw [List.mem_filterMap, hnow]
  constructor
  · rintro ⟨channel, hchannel, hp⟩
    have hlt := List.mem_range.mp hchannel
    rw [Snapshot.channel_eq_ok (hbefore ▸ hlt), Snapshot.channel_eq_ok (hnow ▸ hlt)] at hp
    obtain ⟨event, hevent, rfl⟩ := Option.map_eq_some_iff.mp hp
    exact ⟨rfl, hlt, hevent⟩
  · rintro ⟨hframe, hlt, hevent⟩
    refine ⟨p.channel, List.mem_range.mpr hlt, ?_⟩
    rw [Snapshot.channel_eq_ok (hbefore ▸ hlt), Snapshot.channel_eq_ok (hnow ▸ hlt)]
    simp only [hevent, Option.map_some, ← hframe]

theorem Snapshot.frame_of_mem_events {before now : Snapshot} {p : Placement}
    (hp : p ∈ before.events tuning now) : p.frame = now.frame := by
  obtain ⟨channel, _, hp⟩ := List.mem_filterMap.mp hp
  split at hp
  · obtain ⟨event, _, rfl⟩ := Option.map_eq_some_iff.mp hp
    rfl
  · cases hp

theorem Snapshot.pairwise_events (before now : Snapshot) :
    (before.events tuning now).Pairwise Placement.Before := by
  unfold Snapshot.events
  refine List.pairwise_filterMap.mpr (List.pairwise_lt_range.imp ?_)
  intro channel channel' hlt p hp q hq
  split at hp
  · obtain ⟨event, _, rfl⟩ := Option.map_eq_some_iff.mp hp
    split at hq
    · obtain ⟨event', _, rfl⟩ := Option.map_eq_some_iff.mp hq
      exact Or.inr ⟨rfl, hlt⟩
    · cases hq
  · cases hp

/-! ## A run of snapshots -/

@[simp] theorem timeline_nil (baseline : Snapshot) : timeline tuning baseline [] = [] := rfl

@[simp] theorem timeline_cons (baseline now : Snapshot) (rest : List Snapshot) :
    timeline tuning baseline (now :: rest) =
      baseline.events tuning now ++ timeline tuning now rest := rfl

theorem frame_of_mem_timeline {baseline : Snapshot} {snapshots : List Snapshot} {p : Placement}
    (hp : p ∈ timeline tuning baseline snapshots) : ∃ s ∈ snapshots, p.frame = s.frame := by
  induction snapshots generalizing baseline with
  | nil => cases hp
  | cons now rest ih =>
      rcases List.mem_append.mp hp with hp | hp
      · exact ⟨now, List.mem_cons_self, Snapshot.frame_of_mem_events hp⟩
      · obtain ⟨s, hs, hframe⟩ := ih hp
        exact ⟨s, List.mem_cons_of_mem _ hs, hframe⟩

theorem pairwise_timeline {baseline : Snapshot} {snapshots : List Snapshot}
    (hframes : snapshots.Pairwise fun s t => s.frame < t.frame) :
    (timeline tuning baseline snapshots).Pairwise Placement.Before := by
  induction snapshots generalizing baseline with
  | nil => exact List.Pairwise.nil
  | cons now rest ih =>
      obtain ⟨hfirst, hrest⟩ := List.pairwise_cons.mp hframes
      rw [timeline_cons, List.pairwise_append]
      refine ⟨Snapshot.pairwise_events baseline now, ih hrest, fun p hp q hq => ?_⟩
      obtain ⟨s, hs, hframe⟩ := frame_of_mem_timeline hq
      exact Or.inl (by rw [Snapshot.frame_of_mem_events hp, hframe]; exact hfirst s hs)

/-- A placement is listed exactly if the snapshot of its frame differs from the
one before it in the way that the event says. -/
theorem mem_timeline {baseline : Snapshot} {snapshots : List Snapshot}
    (hbaseline : baseline.chip = chip) (hchip : ∀ s ∈ snapshots, s.chip = chip) {p : Placement} :
    p ∈ timeline tuning baseline snapshots ↔
      ∃ (k : ℕ) (before now : Snapshot),
        (baseline :: snapshots)[k]? = some before ∧ snapshots[k]? = some now ∧
          p.frame = now.frame ∧ p.channel < chip.family.channelCount ∧
            Event.between tuning (before.decode p.channel) (now.decode p.channel) =
              some p.event := by
  induction snapshots generalizing baseline with
  | nil => simp
  | cons now rest ih =>
      obtain ⟨hnow, hrest⟩ := List.forall_mem_cons.mp hchip
      rw [timeline_cons, List.mem_append, Snapshot.mem_events hbaseline hnow, ih hnow hrest]
      constructor
      · rintro (h | ⟨k, before, current, hbefore, hcurrent, h⟩)
        · exact ⟨0, baseline, now, rfl, rfl, h⟩
        · exact ⟨k + 1, before, current, hbefore, hcurrent, h⟩
      · rintro ⟨k, before, current, hbefore, hcurrent, h⟩
        cases k with
        | zero =>
            cases hbefore
            cases hcurrent
            exact Or.inl h
        | succ k => exact Or.inr ⟨k, before, current, hbefore, hcurrent, h⟩

end Chiptune
