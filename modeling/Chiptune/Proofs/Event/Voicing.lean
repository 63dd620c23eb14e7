import Chiptune.Proofs.Event.Timeline
import Chiptune.Proofs.Pitch.Equality

/-!
# Playing a timeline

The events of a channel are instructions to an automaton that is silent or
sounds a note.  This file proves that the automaton never meets an event that
it cannot take, and that after the events of a snapshot it sounds exactly what
the channel was doing in that snapshot (`timeline_plays`).

`Voicing.ofChannel` is the invariant: it reads off a channel's registers what
the automaton should be doing.  `Voicing.replay_between` says that the event
between two states of a channel, if there is one, takes the automaton from the
first reading to the second.  It is the only place where the classifier of
events is looked into.  A run of snapshots is then an induction on the list.

The frequency enters through its note alone.  That matters when two different
frequencies have the same note and cents that round to zero, when they compare
equal, and when they are infinite or no number at all: in each case no note
starts, so that the note must not have changed.
-/

namespace Chiptune

/-- What a channel that is played from its events is doing. -/
inductive Voicing where
  | silent
  | sounding (note : UInt8)
  deriving DecidableEq

namespace Voicing

/-- Takes an event.  A note can start at any time unless it already sounds; all
other events need a note that sounds. -/
def next : Voicing → Event → Option Voicing
  | silent, .noteOn note => some (sounding note)
  | sounding old, .noteOn note => if note = old then none else some (sounding note)
  | sounding _, .noteOff => some silent
  | sounding note, .volumeChange _ => some (sounding note)
  | sounding note, .pitchChange _ => some (sounding note)
  | silent, .noteOff => none
  | silent, .volumeChange _ => none
  | silent, .pitchChange _ => none

/-- Takes events in order, up to the first one that is not legal. -/
def replay (v : Voicing) (events : List Event) : Option Voicing :=
  events.foldlM next v

/-- What a channel sounds: the note of its frequency while it is audible. -/
def ofChannel (tuning : Tuning) (c : Channel) : Voicing :=
  match c.audible, c.hz with
  | true, some hz => sounding (tuning.note hz)
  | _, _ => silent

/-- What a channel of a snapshot sounds; a channel that the chip does not have is
silent. -/
def ofSnapshot (tuning : Tuning) (channel : ℕ) (s : Snapshot) : Voicing :=
  match s.channel channel with
  | .ok c => ofChannel tuning c
  | .error _ => silent

end Voicing

/-- The placements of one channel. -/
def onChannel (channel : ℕ) (events : List Placement) : List Placement :=
  events.filter fun p => p.channel = channel

variable {tuning : Tuning} {chip : Chip}

/-! ## One event -/

theorem Channel.audible_cases (c : Channel) :
    c.audible = false ∨ ∃ hz, c.audible = true ∧ c.hz = some hz := by
  cases haudible : c.audible with
  | false => exact Or.inl rfl
  | true =>
      obtain ⟨hz, hhz⟩ := Option.isSome_iff_exists.mp (audible_iff.mp haudible).2.2
      exact Or.inr ⟨hz, rfl, hhz⟩

theorem Channel.volume_ne_zero_of_audible {c : Channel} (h : c.audible = true) :
    c.volume ≠ 0 := by
  intro hzero
  have hpos := (audible_iff.mp h).2.1
  rw [hzero] at hpos
  exact absurd hpos (by decide)

@[simp] theorem Voicing.ofChannel_of_not_audible {c : Channel} (h : c.audible = false) :
    Voicing.ofChannel tuning c = .silent := by
  unfold Voicing.ofChannel
  rw [h]

@[simp] theorem Voicing.ofChannel_of_audible {c : Channel} {hz : Float} (h : c.audible = true)
    (hhz : c.hz = some hz) : Voicing.ofChannel tuning c = .sounding (tuning.note hz) := by
  unfold Voicing.ofChannel
  rw [h, hhz]

theorem Voicing.replay_singleton (v : Voicing) (event : Event) :
    v.replay [event] = v.next event := by
  unfold Voicing.replay
  rw [List.foldlM_cons]
  cases v.next event <;> rfl

theorem Voicing.replay_append (v : Voicing) (first rest : List Event) :
    v.replay (first ++ rest) = (v.replay first).bind fun w => w.replay rest :=
  List.foldlM_append

theorem Voicing.replay_volume (before now : Channel) (note : UInt8) :
    (sounding note).replay (if before.volume = now.volume then none
      else some (Event.volumeChange now.volume) : Option Event).toList = some (sounding note) := by
  split
  · rfl
  · exact replay_singleton _ _

/-- Between two frequencies a sounding channel keeps or changes its note as the
frequencies do. -/
theorem Voicing.replay_sounding (before now : Channel) (beforeHz hz : Float) :
    (sounding (tuning.note beforeHz)).replay
        (Event.sounding tuning before now beforeHz hz).toList =
      some (sounding (tuning.note hz)) := by
  unfold Event.sounding
  by_cases hequal : (beforeHz == hz) = true
  · -- Frequencies that compare equal need not be the same number, but they have the same note.
    rw [if_pos hequal, replay_volume, tuning.note_eq_of_beq hequal]
  · rw [if_neg hequal]
    by_cases hnote : tuning.note beforeHz = tuning.note hz
    · rw [if_neg (not_not.mpr hnote), hnote]
      split
      · exact replay_volume before now _
      · exact replay_singleton _ _
    · rw [if_pos hnote, Option.toList_some, replay_singleton]
      exact if_neg (Ne.symm hnote)

/-- The event between two states of a channel is legal in the first and leads to
the second; where there is none, the two sound alike. -/
theorem Voicing.replay_between (before now : Channel) :
    (ofChannel tuning before).replay (Event.between tuning before now).toList =
      some (ofChannel tuning now) := by
  unfold Event.between
  rcases now.audible_cases with hnow | ⟨hz, hnow, hhz⟩
  · rw [ofChannel_of_not_audible hnow, hnow]
    rcases before.audible_cases with hbefore | ⟨beforeHz, hbefore, hbeforeHz⟩
    · rw [ofChannel_of_not_audible hbefore, hbefore]
      rfl
    · rw [ofChannel_of_audible hbefore hbeforeHz, hbefore]
      exact replay_singleton _ _
  · rw [ofChannel_of_audible hnow hhz, hnow, hhz]
    rcases before.audible_cases with hbefore | ⟨beforeHz, hbefore, hbeforeHz⟩
    · rw [ofChannel_of_not_audible hbefore, hbefore]
      exact replay_singleton _ _
    · rw [ofChannel_of_audible hbefore hbeforeHz, hbefore, hbeforeHz]
      exact replay_sounding before now beforeHz hz

theorem Event.volume_of_between {before now : Channel} {volume : UInt8}
    (h : Event.between tuning before now = some (.volumeChange volume)) :
    now.audible = true ∧ now.volume = volume := by
  have hsounding : ∀ beforeHz hz, Event.sounding tuning before now beforeHz hz =
      some (.volumeChange volume) → now.volume = volume := by
    intro beforeHz hz hevent
    unfold Event.sounding at hevent
    simp only at hevent
    split_ifs at hevent <;> cases hevent <;> rfl
  unfold Event.between at h
  rcases now.audible_cases with hnow | ⟨hz, hnow, hhz⟩
  · rw [hnow] at h
    split at h <;> simp_all
  · refine ⟨hnow, ?_⟩
    rw [hnow, hhz] at h
    rcases before.audible_cases with hbefore | ⟨beforeHz, hbefore, hbeforeHz⟩
    · rw [hbefore] at h
      cases h
    · rw [hbefore, hbeforeHz] at h
      exact hsounding beforeHz hz h

/-! ## A run of snapshots -/

theorem onChannel_append (channel : ℕ) (first rest : List Placement) :
    onChannel channel (first ++ rest) = onChannel channel first ++ onChannel channel rest :=
  List.filter_append _ _

/-- Between two snapshots a channel has one event at most, that of its two states. -/
theorem onChannel_events {before now : Snapshot} (hbefore : before.chip = chip)
    (hnow : now.chip = chip) {channel : ℕ} (hchannel : channel < chip.family.channelCount) :
    onChannel channel (before.events tuning now) =
      (Event.between tuning (before.decode channel) (now.decode channel)).toList.map
        fun event => ⟨now.frame, channel, event⟩ := by
  refine ((Snapshot.pairwise_events before now).filter _).eq_of_mem_iff ?_ fun p => ?_
  · cases Event.between tuning (before.decode channel) (now.decode channel) <;> simp
  · rw [List.mem_filter, Snapshot.mem_events hbefore hnow, List.mem_map]
    constructor
    · rintro ⟨⟨hframe, _, hevent⟩, hp⟩
      obtain rfl := of_decide_eq_true hp
      refine ⟨p.event, Option.mem_toList.mpr hevent, ?_⟩
      rw [← hframe]
    · rintro ⟨event, hevent, rfl⟩
      exact ⟨⟨rfl, hchannel, Option.mem_toList.mp hevent⟩, decide_eq_true rfl⟩

theorem onChannel_events_of_ge {before now : Snapshot} (hbefore : before.chip = chip)
    (hnow : now.chip = chip) {channel : ℕ} (hchannel : ¬ channel < chip.family.channelCount) :
    onChannel channel (before.events tuning now) = [] := by
  refine List.filter_eq_nil_iff.mpr fun p hp hon => ?_
  obtain rfl := of_decide_eq_true hon
  exact hchannel ((Snapshot.mem_events hbefore hnow).mp hp).2.1

theorem Voicing.replay_events {before now : Snapshot} (hbefore : before.chip = chip)
    (hnow : now.chip = chip) (channel : ℕ) :
    (ofSnapshot tuning channel before).replay
        ((onChannel channel (before.events tuning now)).map (·.event)) =
      some (ofSnapshot tuning channel now) := by
  unfold ofSnapshot
  by_cases hchannel : channel < chip.family.channelCount
  · rw [onChannel_events hbefore hnow hchannel, List.map_map,
      Snapshot.channel_eq_ok (hbefore ▸ hchannel), Snapshot.channel_eq_ok (hnow ▸ hchannel)]
    simpa [Function.comp_def] using
      @replay_between tuning (before.decode channel) (now.decode channel)
  · rw [onChannel_events_of_ge hbefore hnow hchannel,
      Snapshot.channel_eq_error (hbefore ▸ hchannel), Snapshot.channel_eq_error (hnow ▸ hchannel)]
    rfl

/-- A whole timeline takes the automaton to what the last snapshot sounds. -/
theorem Voicing.replay_timeline {baseline : Snapshot} {snapshots : List Snapshot}
    (hbaseline : baseline.chip = chip) (hchip : ∀ s ∈ snapshots, s.chip = chip) (channel : ℕ) :
    (ofSnapshot tuning channel baseline).replay
        ((onChannel channel (timeline tuning baseline snapshots)).map (·.event)) =
      some (ofSnapshot tuning channel (snapshots.getLastD baseline)) := by
  induction snapshots generalizing baseline with
  | nil => rfl
  | cons now rest ih =>
      obtain ⟨hnow, hrest⟩ := List.forall_mem_cons.mp hchip
      rw [timeline_cons, onChannel_append, List.map_append, replay_append,
        replay_events hbaseline hnow, Option.bind_some, ih hnow hrest, List.getLastD_cons]

/-- The events up to the frame of a snapshot are those of the snapshots up to it. -/
theorem filter_timeline_of_frame_le {baseline s : Snapshot} {snapshots : List Snapshot} {k : ℕ}
    (hframes : snapshots.Pairwise fun s t => s.frame < t.frame) (hk : snapshots[k]? = some s) :
    (timeline tuning baseline snapshots).filter (fun p => p.frame ≤ s.frame) =
      timeline tuning baseline (snapshots.take (k + 1)) := by
  induction snapshots generalizing baseline k with
  | nil => cases hk
  | cons now rest ih =>
      obtain ⟨hfirst, hrest⟩ := List.pairwise_cons.mp hframes
      rw [timeline_cons, List.filter_append, List.take_succ_cons, timeline_cons]
      have hle : now.frame ≤ s.frame := by
        rcases List.mem_cons.mp (List.mem_of_getElem? hk) with rfl | hs
        · exact le_rfl
        · exact (hfirst s hs).le
      have hkept : (baseline.events tuning now).filter (fun p => p.frame ≤ s.frame) =
          baseline.events tuning now := by
        refine List.filter_eq_self.mpr fun p hp => decide_eq_true ?_
        rw [Snapshot.frame_of_mem_events hp]
        exact hle
      rw [hkept]
      cases k with
      | zero =>
          cases hk
          rw [List.take_zero, timeline_nil]
          congr 1
          refine List.filter_eq_nil_iff.mpr fun p hp hearly => ?_
          obtain ⟨t, ht, hframe⟩ := frame_of_mem_timeline hp
          exact absurd (of_decide_eq_true hearly) (by rw [hframe]; exact not_le.mpr (hfirst t ht))
      | succ k => rw [ih hrest hk]

theorem pairwise_onChannel {events : List Placement} (h : events.Pairwise Placement.Before)
    (channel : ℕ) : (onChannel channel events).Pairwise fun p q => p.frame < q.frame := by
  refine (h.filter _).imp_of_mem ?_
  intro p q hp hq hbefore
  have hchannel : p.channel = q.channel := by
    rw [of_decide_eq_true (List.mem_filter.mp hp).2, of_decide_eq_true (List.mem_filter.mp hq).2]
  rcases hbefore with hframe | ⟨_, hlt⟩
  · exact hframe
  · exact absurd hchannel hlt.ne

/-- A timeline can be played channel by channel.  Started with what the baseline
sounds, the automaton can take every event of a channel; it meets at most one
event in a frame; after the events up to the frame of a snapshot it sounds what
the channel does in that snapshot; and a change of volume carries the volume that
the channel then has, which is not zero. -/
theorem timeline_plays (tuning : Tuning) {chip : Chip} {baseline : Snapshot}
    {snapshots : List Snapshot} (hbaseline : baseline.chip = chip)
    (hchip : ∀ s ∈ snapshots, s.chip = chip)
    (hframes : snapshots.Pairwise fun s t => s.frame < t.frame) (channel : ℕ) :
    let start := Voicing.ofSnapshot tuning channel baseline
    let events := onChannel channel (timeline tuning baseline snapshots)
    (start.replay (events.map (·.event))).isSome ∧
      events.Pairwise (fun p q => p.frame < q.frame) ∧
      (∀ (k : ℕ) (s : Snapshot), snapshots[k]? = some s →
        start.replay ((events.filter fun p => p.frame ≤ s.frame).map (·.event)) =
          some (Voicing.ofSnapshot tuning channel s)) ∧
      ∀ (frame : ℕ) (volume : UInt8), ⟨frame, channel, .volumeChange volume⟩ ∈ events →
        volume ≠ 0 ∧ ∃ s ∈ snapshots, s.frame = frame ∧
          ∃ c, s.channel channel = .ok c ∧ c.volume = volume := by
  intro start events
  refine ⟨?_, pairwise_onChannel (pairwise_timeline hframes) channel, fun k s hk => ?_,
    fun frame volume hmem => ?_⟩
  · rw [Voicing.replay_timeline hbaseline hchip]
    rfl
  · -- The automaton has only been shown to follow whole timelines, so the events up to the
    -- snapshot have to be the timeline of the snapshots up to it.
    have hcut : events.filter (fun p => p.frame ≤ s.frame) =
        onChannel channel (timeline tuning baseline (snapshots.take (k + 1))) := by
      rw [← filter_timeline_of_frame_le hframes hk]
      exact List.filter_comm _ _ _
    rw [hcut, Voicing.replay_timeline hbaseline fun t ht => hchip t (List.mem_of_mem_take ht)]
    obtain ⟨hlt, rfl⟩ := List.getElem?_eq_some_iff.mp hk
    rw [List.take_succ_eq_append_getElem hlt, List.getLastD_concat]
  · have hp := (List.mem_filter.mp hmem).1
    obtain ⟨k, before, now, -, hnow, hframe, hlt, hevent⟩ :=
      (mem_timeline hbaseline hchip).mp hp
    have hmemnow := List.mem_of_getElem? hnow
    obtain ⟨haudible, hvolume⟩ := Event.volume_of_between hevent
    refine ⟨hvolume ▸ Channel.volume_ne_zero_of_audible haudible, now, hmemnow, hframe.symm,
      now.decode channel, Snapshot.channel_eq_ok ?_, hvolume⟩
    rw [hchip now hmemnow]
    exact hlt

/-- A chip at rest, before anything is played. -/
def atRest : Latch :=
  .powerOn (.standard .paula)

/-- A note that starts at full volume, is turned down, and is silenced. -/
def fadingNote : List Snapshot :=
  let started := atRest.applyAll [⟨3, 1, 0⟩, ⟨0, 1, 0⟩, ⟨1, 0xAC, 0⟩, ⟨2, 64, 0⟩]
  let softer := started.apply ⟨2, 32, 0⟩
  [started.snapshot 0, softer.snapshot 1, (softer.apply ⟨2, 0, 0⟩).snapshot 2]

theorem timeline_plays_fadingNote :
    (∀ s ∈ fadingNote, s.chip = .standard .paula) ∧
      fadingNote.Pairwise (fun s t => s.frame < t.frame) ∧
      onChannel 0 (timeline {} (atRest.snapshot 0) fadingNote) =
        [⟨0, 0, .noteOn 60⟩, ⟨1, 0, .volumeChange 32⟩, ⟨2, 0, .noteOff⟩] ∧
      Voicing.silent.replay [.noteOn 60, .volumeChange 32] = some (.sounding 60) := by
  have hchip : ∀ s ∈ fadingNote, s.chip = .standard .paula := by
    simp [fadingNote, atRest, Latch.applyAll, Latch.apply, Latch.snapshot, Latch.powerOn]
  have hframes : fadingNote.Pairwise fun s t => s.frame < t.frame := by
    simp [fadingNote, Latch.snapshot]
  have hevents : onChannel 0 (timeline {} (atRest.snapshot 0) fadingNote) =
      [⟨0, 0, .noteOn 60⟩, ⟨1, 0, .volumeChange 32⟩, ⟨2, 0, .noteOff⟩] := by
    decide +kernel
  have hbaseline : (atRest.snapshot 0).chip = .standard .paula := rfl
  have hsounds := (timeline_plays {} hbaseline hchip hframes 0).2.2.1 1 _ rfl
  rw [hevents] at hsounds
  refine ⟨hchip, hframes, hevents, hsounds.trans ?_⟩
  decide +kernel

end Chiptune
