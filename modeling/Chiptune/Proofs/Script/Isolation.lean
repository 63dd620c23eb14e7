import Chiptune.Proofs.Extraction.Channels
import Chiptune.Proofs.Extraction.Frames
import Chiptune.Proofs.Script.Turns
import Mathlib.Data.Int.Notation
import Mathlib.Data.List.Forall2
import Mathlib.Tactic.Choose

/-!
# Voices of a player do not meet

A voice only sets registers of its own channel (`Voice.within_advance`), and nothing
that another voice does shows in its turn.  So a player in which all voices but one
are at rest does what a full player does for that channel: when the full player
halts, the other one halts in no more steps (`Player.Part.halts`), and this carries
over to all frames of a song (`Player.Part.play`) and to setting it up
(`Player.part_of_run`).

The two do not run in lock-step.  In a frame the full player goes on until its
slowest voice is done; the other one halts as soon as its only voice is, and waits
from then on.
-/

namespace Chiptune

namespace Script

/-! ## What a voice sets -/

/-- All settings are of registers of a channel. -/
def Within (channel : ℕ) (settings : List Setting) : Prop :=
  ∀ s ∈ settings, ∃ field, s.register = Paula.register channel field

theorem within_nil (channel : ℕ) : Within channel [] := fun _ hs => absurd hs List.not_mem_nil

theorem within_singleton (channel : ℕ) (field : Paula.Field) (value : UInt8) :
    Within channel [⟨Paula.register channel field, value⟩] := by
  intro s hs
  rw [List.mem_singleton.mp hs]
  exact ⟨field, rfl⟩

theorem RampTarget.within_settings (target : RampTarget) (channel : ℕ) (value : ℤ) :
    Within channel (target.settings channel value) := by
  cases target with
  | volume => exact within_singleton channel .volume _
  | period =>
      intro s hs
      rcases List.mem_cons.mp hs with rfl | hs
      · exact ⟨.periodHigh, rfl⟩
      · rw [List.mem_singleton.mp hs]
        exact ⟨.periodLow, rfl⟩

namespace Voice

theorem within_startRamp (channel : ℕ) (ramp : Ramp) (v : Voice) :
    Within channel (v.startRamp channel ramp).1 := by
  unfold startRamp
  split
  · exact ramp.target.within_settings channel _
  · exact ramp.target.within_settings channel _

theorem within_execute (channel : ℕ) (instruction : Instruction) (v : Voice) :
    Within channel (v.execute channel instruction).1 := by
  cases instruction with
  | stop => exact within_nil channel
  | wave slot => exact within_singleton channel .slot slot
  | period value => exact RampTarget.period.within_settings channel _
  | volume value => exact within_singleton channel .volume value
  | volumeRamp first last frames => exact within_startRamp channel _ v
  | periodRamp first last frames => exact within_startRamp channel _ v
  | wait frames =>
      unfold execute
      dsimp only
      split <;> exact within_nil channel
  | jump target => exact within_nil channel

theorem within_readOn {memory : Memory} {channel : ℕ} {v : Voice} {settings : List Setting}
    (h : (v.readOn memory channel).1 = .ok settings) : Within channel settings := by
  unfold readOn at h
  rcases hread : (Instruction.read memory).run.run v.pc with ⟨unreadable | instruction, after⟩
  · rw [hread] at h
    cases h
  · rw [hread] at h
    cases h
    exact within_execute channel instruction _

/-- A voice only sets registers of its own channel. -/
theorem within_advance {memory : Memory} {channel : ℕ} {v : Voice} {settings : List Setting}
    (h : (v.advance memory channel).1 = .ok settings) : Within channel settings := by
  obtain ⟨pc, activity, due⟩ := v
  cases due with
  | false =>
      cases h
      exact within_nil channel
  | true =>
      cases activity with
      | stopped =>
          cases h
          exact within_nil channel
      | waiting remaining =>
          cases h
          exact within_nil channel
      | ramping ramp =>
          cases h
          exact ramp.target.within_settings channel _
      | ready => exact within_readOn h

theorem within_settingsOf (memory : Memory) (channel : ℕ) (v : Voice) :
    Within channel (settingsOf (advance memory) channel v) := by
  unfold settingsOf
  cases hadvance : (v.advance memory channel).1 with
  | error fault => exact within_nil channel
  | ok settings => exact within_advance hadvance

end Voice

theorem channel_of_within {channel : ℕ} {settings : List Setting} (h : Within channel settings)
    (hchannel : channel < 64) {s : Setting} (hs : s ∈ settings) : s.channel = channel := by
  obtain ⟨field, hfield⟩ := h s hs
  unfold Setting.channel
  rw [hfield, Paula.toNat_register hchannel, Paula.channel_of_offset]

theorem ofChannel_eq_self {channel : ℕ} {settings : List Setting} (h : Within channel settings)
    (hchannel : channel < 64) : ofChannel channel settings = settings :=
  List.filter_eq_self.mpr fun _ hs => decide_eq_true (channel_of_within h hchannel hs)

theorem ofChannel_eq_nil {channel other : ℕ} {settings : List Setting} (h : Within other settings)
    (hother : other < 64) (hne : other ≠ channel) : ofChannel channel settings = [] := by
  refine List.filter_eq_nil_iff.mpr fun s hs hchannel => hne ?_
  rw [← channel_of_within h hother hs]
  exact of_decide_eq_true hchannel

/-! ## A part of a player -/

/-- `q` is `p` without all voices but one. -/
structure Player.Part (channel : ℕ) (p q : Player) : Prop where
  memory : q.memory = p.memory
  loaded : p.loading = false
  room : p.voices.length ≤ 64
  voice : ∃ v, p.voices[channel]? = some v ∧ q.Solo channel v

namespace Player

variable {channel : ℕ} {p q : Player}

/-- What all voices set on a channel in a step is what its voice sets. -/
theorem ofChannel_settings (hroom : p.voices.length ≤ 64) {v : Voice}
    (hv : p.voices[channel]? = some v) :
    ofChannel channel p.settings = settingsOf (Voice.advance p.memory) channel v := by
  have hlt : ∀ {i : ℕ} {w : Voice}, p.voices[i]? = some w → i < 64 := fun hw =>
    Nat.lt_of_lt_of_le (List.getElem?_eq_some_iff.mp hw).1 hroom
  unfold ofChannel settings
  rw [List.filter_flatMap, flatMap_zipIdx_of_others hv fun i w hw hne => ?_]
  · rw [Nat.zero_add]
    exact ofChannel_eq_self (Voice.within_settingsOf p.memory channel v) (hlt hv)
  · rw [Nat.zero_add]
    exact ofChannel_eq_nil (Voice.within_settingsOf p.memory i w) (hlt hw) hne

namespace Part

theorem enter (h : Part channel p q) :
    Part channel (Player.enter .frame p) (Player.enter .frame q) := by
  obtain ⟨v, hv, hsolo⟩ := h.voice
  refine ⟨h.memory, rfl, ?_, v.beginFrame, ?_, hsolo.enter⟩
  · rw [voices_enter, List.length_map]
    exact h.room
  · rw [voices_enter, List.getElem?_map, hv]
    rfl

/-- A step of the whole is a step of the part or, if its voice is not due, nothing to it. -/
theorem step (h : Part channel p q) {writes : List Write} {next : Player}
    (hstep : p.step = (.ok writes, next)) :
    (q.halted = true ∧ ofChannel channel (writes.map Write.setting) = [] ∧
        Part channel next q) ∨
      ∃ mine q', q.halted = false ∧ q.step = (.ok mine, q') ∧
        mine.map Write.setting = ofChannel channel (writes.map Write.setting) ∧
        Part channel next q' := by
  obtain ⟨v, hv, hsolo⟩ := h.voice
  obtain ⟨hsucceeds, rfl, rfl⟩ := (step_eq_ok_iff h.loaded).mp hstep
  have hroom : p.turned.voices.length ≤ 64 := by
    rw [length_voices_turned]
    exact h.room
  have hvoice : p.turned.voices[channel]? = some (v.advance p.memory channel).2 := by
    rw [getElem?_voices_turned, hv]
    rfl
  rw [map_setting_write, ofChannel_settings h.room hv]
  -- The part makes a step exactly if its voice is due.
  cases hdue : v.due with
  | false =>
      have hadvance := Voice.advance_of_not_due hdue p.memory channel
      refine .inl ⟨by rw [hsolo.halted_eq, hdue]; rfl, ?_, ?_⟩
      · simp only [settingsOf, hadvance]
      · rw [hadvance] at hvoice
        exact ⟨h.memory, h.loaded, hroom, v, hvoice, hsolo⟩
  | true =>
      obtain ⟨settings, hok⟩ := hsucceeds channel v hv
      rw [Nat.zero_add] at hok
      have hqsteps := (step_eq_ok_iff hsolo.loaded).mpr
        ⟨hsolo.succeeds (h.memory.symm ▸ hok), rfl, rfl⟩
      refine .inr ⟨_, q.turned, by rw [hsolo.halted_eq, hdue]; rfl, hqsteps, ?_, ?_⟩
      · rw [map_setting_write, hsolo.settings_eq, h.memory]
      · refine ⟨h.memory, h.loaded, hroom, _, hvoice, ?_⟩
        rw [← h.memory]
        exact hsolo.turned

/-- If the whole halts, the part does so too, and in no more steps. -/
theorem halts (h : Part channel p q) {writes : List Write} {steps : ℕ} {last : Player}
    (hhalts : source.Halts p writes steps last) :
    ∃ mine few q', source.Halts q mine few q' ∧ few ≤ steps ∧
      mine.map Write.setting = ofChannel channel (writes.map Write.setting) ∧
      Part channel last q' := by
  induction hhalts generalizing q with
  | @done p hhalted =>
      obtain ⟨v, hv, hsolo⟩ := h.voice
      have hdue : v.due = false :=
        (halted_iff h.loaded).mp hhalted v (List.mem_of_getElem? hv)
      refine ⟨[], 0, q, .done ?_, Nat.le_refl 0, rfl, h⟩
      exact hsolo.halted_eq.trans (by rw [hdue]; rfl)
  | @step p next last writes rest steps hrunning hstep _ ih =>
      rcases h.step hstep with ⟨-, hnone, hpart⟩ | ⟨mine, q', hq, hqstep, hmine, hpart⟩
      · -- The part has nothing left to do and waits for the whole.
        obtain ⟨more, few, q'', hqhalts, hfew, hmore, hlast⟩ := ih hpart
        refine ⟨more, few, q'', hqhalts, by omega, ?_, hlast⟩
        rw [hmore, List.map_append, ofChannel_append, hnone, List.nil_append]
      · obtain ⟨more, few, q'', hqhalts, hfew, hmore, hlast⟩ := ih hpart
        refine ⟨mine ++ more, few + 1, q'', .step hq hqstep hqhalts, by omega, ?_, hlast⟩
        rw [List.map_append, hmine, hmore, List.map_append, ofChannel_append]

theorem run (h : Part channel p q) {budget : ℕ} {run : Run} {p' : Player}
    (hrun : source.run budget p = (.ok run, p')) (hhalted : run.outcome = .halted) :
    ∃ mine q', source.run budget q = (.ok mine, q') ∧ run.Narrows channel mine ∧
      Part channel p' q' := by
  obtain ⟨hhalts, hsteps⟩ := Source.halts_of_run hrun hhalted
  obtain ⟨mine, few, q', hqhalts, hfew, hmine, hlast⟩ := h.halts hhalts
  have hqrun := Source.run_eq_of_halts hqhalts (Nat.le_trans hfew hsteps)
  exact ⟨_, q', hqrun, ⟨rfl, hmine⟩, hlast⟩

/-- If the whole halts in every frame, so does the part. -/
theorem play (h : Part channel p q) {budget count : ℕ} {runs : List Run}
    (hplay : source.play budget count p = (runs, none))
    (hhalted : ∀ run ∈ runs, run.outcome = .halted) :
    ∃ mine, source.play budget count q = (mine, none) ∧
      List.Forall₂ (Run.Narrows channel) runs mine := by
  induction count generalizing p q runs with
  | zero =>
      cases hplay
      exact ⟨[], rfl, .nil⟩
  | succ count ih =>
      unfold Source.play at hplay ⊢
      rcases hrun : source.run budget (source.enter .frame p) with ⟨fault | run, p'⟩
      · rw [hrun] at hplay
        cases hplay
      · rw [hrun] at hplay
        rcases hrest : source.play budget count p' with ⟨rest, fault?⟩
        simp only [hrest] at hplay
        cases hplay
        obtain ⟨hfirst, hothers⟩ := List.forall_mem_cons.mp hhalted
        obtain ⟨mine, q', hqrun, hmine, hpart⟩ := h.enter.run hrun hfirst
        obtain ⟨more, hqplay, hmore⟩ := ih hpart hrest hothers
        have hqrun' : source.run budget (source.enter .frame q) = (.ok mine, q') := hqrun
        refine ⟨mine :: more, ?_, .cons hmine hmore⟩
        simp only [hqrun', hqplay]

end Part

/-! ## Reading the table -/

variable {memory : Memory} {channels : ℕ} {table : UInt16}

/-- Where the table of `q` has the entry of one channel and is unused otherwise, it
sets up a part of what the table of `p` sets up. -/
theorem part_of_run {channel budget : ℕ} {other : UInt16} {run : Run} {p : Player}
    (hroom : channels ≤ 64) (hchannel : channel < channels)
    (hrun : source.run budget (source.enter .init (powerOn memory channels table)) = (.ok run, p))
    (hhalted : run.outcome = .halted)
    (hother : ∀ i < channels, memory.readWord (other.toNat + 2 * i) =
      if i = channel then memory.readWord (table.toNat + 2 * i) else .ok unusedEntry) :
    run.writes = [] ∧ ∃ q,
      source.run budget (source.enter .init (powerOn memory channels other)) =
        (.ok ⟨[], 1, .halted⟩, q) ∧ Part channel p q := by
  obtain ⟨hbudget, hexists⟩ := exists_entry_of_run hrun hhalted
  choose! entry hentry using hexists
  have hkept : ∀ i < channels, memory.readWord (other.toNat + 2 * i) =
      .ok (if i = channel then entry i else unusedEntry) := by
    intro i hi
    rw [hother i hi]
    by_cases hsame : i = channel
    · rw [if_pos hsame, if_pos hsame, hentry i hi]
    · rw [if_neg hsame, if_neg hsame]
  -- Both tables can be read in full, so both players are known after their first step.
  have hfull := hrun.symm.trans (Source.run_eq_of_halts (halts_load hentry) hbudget)
  have hpart := Source.run_eq_of_halts (halts_load hkept) hbudget
  cases hfull
  have hsolo := @solo_load memory channels other
    (fun i => if i = channel then entry i else unusedEntry) channel hchannel
    (fun i _ hne => if_neg hne) 1
  simp only [if_true] at hsolo
  refine ⟨rfl, _, hpart, rfl, rfl, by simpa using hroom, .ofEntry (entry channel), ?_, hsolo⟩
  simp [hchannel]

end Player

end Script

end Chiptune
