import Chiptune.Proofs.Script.Interpolation
import Chiptune.Proofs.Script.Schedules

/-!
# A ramp, frame by frame

A voice that reads the instruction of a ramp takes up the frame with the ramp's first stage,
and later frames with the others, one stage a frame (`Voice.advance_ramp`).  When all stages
are behind it, it is ready for the next instruction.

How many stages have passed can be told from the calls alone: a frame has a stage of the ramp
if it takes a step at all, however many it takes (`Player.advances_of_takesFrames`).  So the
calls decide what the voice has set and where it stands in its ramp
(`Player.ramp_interpolates`).
-/

namespace Chiptune.Script

/-! ## The ramps of instructions -/

/-- The ramp that an instruction starts. -/
def Instruction.ramp? : Instruction → Option Ramp
  | .volumeRamp first last frames => some ⟨.volume, first.toNat, last.toNat, frames.toNat, 0⟩
  | .periodRamp first last frames => some ⟨.period, first.toNat, last.toNat, frames.toNat, 0⟩
  | _ => none

/-- The number whose bytes are set, the high one first. -/
def spelled (settings : List Setting) : ℕ :=
  settings.foldl (fun number s => 256 * number + s.value.toNat) 0

theorem RampTarget.spelled_settings (target : RampTarget) (channel : ℕ) {value : ℕ}
    (h : value ≤ target.limit) : spelled (target.settings channel value) = value := by
  cases target with
  | volume =>
      have hvalue : min value 0xFF = value := Nat.min_eq_left h
      have hbyte : value % 256 = value := Nat.mod_eq_of_lt (Nat.lt_succ_of_le h)
      simp [spelled, settings, hvalue, hbyte]
  | period =>
      have hvalue : min value 0xFFFF = value := Nat.min_eq_left h
      have hhigh : value / 256 % 256 = value / 256 :=
        Nat.mod_eq_of_lt (Nat.div_lt_of_lt_mul (Nat.lt_succ_of_le h))
      simp [spelled, settings, hvalue, hhigh, Nat.div_add_mod]

namespace Ramp

/-- The ramp with so many frames behind it. -/
def stage (ramp : Ramp) (i : ℕ) : Ramp :=
  { ramp with position := i }

/-- What is next for a voice that has so many frames of its ramp behind it. -/
def after (ramp : Ramp) (i : ℕ) : Activity :=
  if ramp.frames ≤ i then .ready else .ramping (ramp.stage i)

/-- A ramp has these values in its frames.  They lead from its first value to its last; to count
the frames takes one byte, and to compute the values 32 bits with a sign; and the registers are
brought to the values as they are. -/
structure Has (ramp : Ramp) (value : ℕ → ℕ) : Prop where
  interpolates : Interpolates ramp.first ramp.last ramp.frames value
  counted : ∀ i < ramp.frames, i + 1 ≤ 0xFF
  computed : ∀ i < ramp.frames, (ramp.stage i).checkedValue? = some ((value i : ℕ) : ℤ)
  taken : ∀ i < ramp.frames, (ramp.stage i).value = value i
  written : ∀ i < ramp.frames, ∀ channel,
    spelled (ramp.target.settings channel (ramp.stage i).value) = value i

variable {instruction : Instruction} {ramp : Ramp} {i : ℕ}

theorem frames_le (h : instruction.ramp? = some ramp) : ramp.frames ≤ 0xFF := by
  cases instruction with
  | volumeRamp first last frames =>
      cases h
      exact limit_byte frames
  | periodRamp first last frames =>
      cases h
      exact limit_byte frames
  | _ => cases h

theorem valid_stage (h : instruction.ramp? = some ramp) (hi : i < ramp.frames) :
    (ramp.stage i).Valid := by
  cases instruction with
  | volumeRamp first last frames =>
      cases h
      exact ⟨hi, limit_byte first, limit_byte last⟩
  | periodRamp first last frames =>
      cases h
      exact ⟨hi, limit_word first, limit_word last⟩
  | _ => cases h

/-- The ramp of an instruction goes evenly from its first operand to its second. -/
theorem has_interpolated (h : instruction.ramp? = some ramp) (hframes : 0 < ramp.frames) :
    ramp.Has (interpolated ramp.first ramp.last ramp.frames) := by
  have hvalue : ∀ i < ramp.frames,
      (ramp.stage i).value = (interpolated ramp.first ramp.last ramp.frames i : ℕ) :=
    fun i hi => Ramp.value_eq (valid_stage h hi).position
  constructor
  case interpolates => exact interpolates_interpolated hframes
  case counted => exact fun i hi => hi.trans_le (frames_le h)
  case computed =>
    intro i hi
    have hcount : ramp.frames ≤ 0xFF := frames_le h
    exact checkedValue?_eq (valid_stage h hi) hcount
  case taken => exact hvalue
  case written =>
    intro i hi channel
    have hvalid := valid_stage h hi
    rw [hvalue i hi]
    exact ramp.target.spelled_settings channel
      ((interpolated_le hi).trans (Nat.max_le.mpr ⟨hvalid.first, hvalid.last⟩))

end Ramp

/-! ## Stages -/

namespace Voice

variable {memory : Memory} {channel i : ℕ} {v : Voice} {instruction : Instruction} {ramp : Ramp}

theorem execute_of_ramp? (h : instruction.ramp? = some ramp) (hframes : 0 < ramp.frames)
    (channel : ℕ) (v : Voice) :
    v.execute channel instruction =
      (ramp.target.settings channel (ramp.stage 0).value, v.takeFrame (ramp.after 1)) := by
  cases instruction with
  | volumeRamp first last frames =>
      cases h
      exact if_neg (Nat.ne_of_gt hframes)
  | periodRamp first last frames =>
      cases h
      exact if_neg (Nat.ne_of_gt hframes)
  | _ => cases h

theorem advance_ramping (channel pc : ℕ) (ramp : Ramp) :
    (⟨pc, .ramping (ramp.stage i), true⟩ : Voice).advance memory channel =
      (.ok (ramp.target.settings channel (ramp.stage i).value),
        ⟨pc, ramp.after (i + 1), false⟩) := rfl

/-- In its advance `i`, counted from zero, a voice goes through the stage `i` of its ramp. -/
theorem advance_ramp (hramp : instruction.ramp? = some ramp)
    (hbytes : memory.Holds v.pc instruction.bytes) (hready : v.activity = .ready)
    (hi : i < ramp.frames) :
    ((advanced memory channel)^[i] v.armed).advance memory channel =
      (.ok (ramp.target.settings channel (ramp.stage i).value),
        ⟨v.pc + instruction.bytes.length, ramp.after (i + 1), false⟩) := by
  induction i with
  | zero =>
      rw [Function.iterate_zero_apply, advance_of_ready (v := v.armed) rfl hready hbytes,
        execute_of_ramp? hramp hi]
      rfl
  | succ i ih =>
      have hstands : (advanced memory channel)^[i + 1] v.armed =
          ⟨v.pc + instruction.bytes.length, .ramping (ramp.stage (i + 1)), true⟩ := by
        rw [Function.iterate_succ_apply', advanced, armed_iterate_advanced, turned,
          ih (Nat.lt_of_succ_lt hi), Ramp.after, if_neg (Nat.not_le.mpr hi)]
        rfl
      rw [hstands, advance_ramping]

theorem setIn_ramp {count : ℕ} (hramp : instruction.ramp? = some ramp)
    (hbytes : memory.Holds v.pc instruction.bytes) (hready : v.activity = .ready)
    (hcount : count ≤ ramp.frames) :
    v.setIn memory channel count =
      (List.range count).flatMap fun i => ramp.target.settings channel (ramp.stage i).value := by
  refine List.flatMap_congr fun i hi => ?_
  have hi : i < ramp.frames := (List.mem_range.mp hi).trans_le hcount
  rw [settingsOf, advance_ramp hramp hbytes hready hi]

/-- Each of the next advances takes up a frame and does not stop the voice. -/
def TakesFrames (memory : Memory) (channel : ℕ) (v : Voice) (count : ℕ) : Prop :=
  ∀ i < count,
    (turned memory channel ((advanced memory channel)^[i] v.armed)).due = false ∧
      (turned memory channel ((advanced memory channel)^[i] v.armed)).running = true

theorem running_after (pc : ℕ) (ramp : Ramp) (i : ℕ) (due : Bool) :
    (⟨pc, ramp.after i, due⟩ : Voice).running = true := by
  unfold Ramp.after
  split <;> rfl

theorem takesFrames_ramp (hramp : instruction.ramp? = some ramp)
    (hbytes : memory.Holds v.pc instruction.bytes) (hready : v.activity = .ready) :
    v.TakesFrames memory channel ramp.frames := by
  intro i hi
  rw [turned, advance_ramp hramp hbytes hready hi]
  exact ⟨rfl, running_after ..⟩

theorem TakesFrames.turned {count : ℕ} (h : v.TakesFrames memory channel (count + 1))
    (hdue : v.due = true) :
    (v.turned memory channel).due = false ∧ (v.turned memory channel).running = true ∧
      (v.turned memory channel).TakesFrames memory channel count := by
  have hnow := h 0 (Nat.succ_pos count)
  rw [Function.iterate_zero_apply, armed_of_due hdue] at hnow
  refine ⟨hnow.1, hnow.2, fun i hi => ?_⟩
  have hlater := h (i + 1) (Nat.succ_lt_succ hi)
  rw [Function.iterate_succ_apply, advanced, armed_armed, armed_of_due hdue] at hlater
  exact hlater

end Voice

/-! ## Frames -/

/-- How many frames take a step, the current one only if it is `fresh`. -/
def framesStepped : (fresh : Bool) → List Call → ℕ
  | _, [] => 0
  | _, .enter _ :: rest => framesStepped true rest
  | true, .step :: rest => framesStepped false rest + 1
  | false, .step :: rest => framesStepped false rest

namespace Player

variable {p last : Player} {channel : ℕ} {v : Voice} {calls : List Call}
  {reports : List (List Write)} {instruction : Instruction} {ramp : Ramp}

/-- Voices that take up a frame with each advance are advanced once in every frame that takes
a step. -/
theorem advances_of_takesFrames (hloaded : p.loading = false) (h : p.Plays calls reports last)
    (hv : p.voices[channel]? = some v) (hrunning : v.running = true)
    (htakes : v.TakesFrames p.memory channel (framesStepped v.due calls)) :
    p.advances channel calls = framesStepped v.due calls := by
  refine Plays.induct (motive := fun p calls _ _ => ∀ v, p.voices[channel]? = some v →
    v.running = true → v.TakesFrames p.memory channel (framesStepped v.due calls) →
      p.advances channel calls = framesStepped v.due calls) ?_ ?_ hloaded h v hv hrunning htakes
  · intro p v _ _ _
    cases v.due <;> rfl
  · intro p call rest writes next reports last hloaded hcall hanswer ih v hv hrunning htakes
    have hmemory := (loading_answer hloaded hcall hanswer).2
    rw [hmemory] at ih
    rw [advances, hanswer]
    rcases answer_cases hloaded hcall hanswer with ⟨rfl, -, rfl⟩ | ⟨rfl, -, -, rfl⟩
    · -- A frame begins, and the voice is due in it.
      have hnext : (p.enter .frame).voices[channel]? = some v.beginFrame := by
        rw [voices_enter, List.getElem?_map, hv]
        rfl
      have hfresh : framesStepped v.due (.enter .frame :: rest) =
          framesStepped v.beginFrame.due rest := by
        rw [framesStepped, Voice.beginFrame, hrunning]
      rw [hfresh] at htakes ⊢
      rw [ih v.beginFrame hnext hrunning htakes]
      exact Nat.zero_add _
    · have hnext : p.turned.voices[channel]? = some (v.turned p.memory channel) := by
        rw [getElem?_voices_turned, hv]
        rfl
      rw [advancesIn, hv, Option.any_some]
      cases hdue : v.due with
      | true =>
          rw [hdue, framesStepped] at htakes
          obtain ⟨hover, hrunning', htakes'⟩ := htakes.turned hdue
          rw [ih _ hnext hrunning' (hover ▸ htakes'), hover, framesStepped, if_pos rfl,
            Nat.add_comm]
      | false =>
          -- What took up the frame did so in an earlier step of it.
          rw [hdue, framesStepped] at htakes
          rw [Voice.turned, Voice.advance_of_not_due hdue] at hnext
          rw [ih v hnext hrunning (by rwa [hdue]), hdue, framesStepped, if_neg Bool.false_ne_true,
            Nat.zero_add]

/-- A ramp goes in as many frames as it should from its first value to its last.

Its values are rounded towards the first and computed without an overflow, and the registers
are brought to just these values.  None of its stages is a fault.  Every frame that takes a
step makes the voice set one value more, until as many frames as the ramp has are over; then
the voice is ready for what is behind the instruction. -/
theorem ramp_interpolates (hramp : instruction.ramp? = some ramp) (hframes : 0 < ramp.frames)
    (hloaded : p.loading = false) (hv : p.voices[channel]? = some v) (hdue : v.due = true)
    (hready : v.activity = .ready) (hbytes : p.memory.Holds v.pc instruction.bytes) :
    ramp.Has (interpolated ramp.first ramp.last ramp.frames) ∧
    (∀ i < ramp.frames, ((Voice.advanced p.memory channel)^[i] v).advance p.memory channel =
      (.ok (ramp.target.settings channel (ramp.stage i).value),
        ⟨v.pc + instruction.bytes.length, ramp.after (i + 1), false⟩)) ∧
    ∀ calls reports last, p.Plays calls reports last →
      framesStepped true calls ≤ ramp.frames →
        reports.map (·.map Write.setting) = (p.sharesAll calls).map List.flatten ∧
        p.emitted channel calls = (List.range (framesStepped true calls)).flatMap (fun i =>
          ramp.target.settings channel (ramp.stage i).value) ∧
        ∃ w, last.voices[channel]? = some w ∧
          (0 < framesStepped true calls → w.pc = v.pc + instruction.bytes.length ∧
            w.activity = ramp.after (framesStepped true calls)) := by
  refine ⟨Ramp.has_interpolated hramp hframes, fun i hi => ?_, ?_⟩
  · rw [← Voice.advance_ramp hramp hbytes hready hi, Voice.armed_of_due hdue]
  · intro calls reports last hplays hcount
    have hrunning : v.running = true := by
      rw [Voice.running, hready]
      rfl
    have htakes : v.TakesFrames p.memory channel (framesStepped v.due calls) := by
      rw [hdue]
      exact fun i hi => Voice.takesFrames_ramp hramp hbytes hready i (hi.trans_le hcount)
    have hadvances := advances_of_takesFrames hloaded hplays hv hrunning htakes
    rw [hdue] at hadvances
    obtain ⟨hset, w, hw, harmed⟩ := voice_of_plays hloaded hplays hv
    rw [hadvances] at hset harmed
    refine ⟨map_setting_of_plays hloaded hplays, ?_, w, hw, fun hpos => ?_⟩
    · rw [hset, Voice.setIn_ramp hramp hbytes hready hcount]
    · obtain ⟨count, hsucc⟩ := Nat.exists_eq_succ_of_ne_zero hpos.ne'
      have hlast : count < ramp.frames := Nat.lt_of_succ_le (hsucc ▸ hcount)
      rw [hsucc, Nat.succ_eq_add_one, Function.iterate_succ_apply', Voice.advanced,
        Voice.armed_iterate_advanced, Voice.turned,
        Voice.advance_ramp hramp hbytes hready hlast] at harmed
      rw [hsucc]
      exact Voice.armed_eq_iff.mp harmed

/-- A period falls from ten to three in three frames.  A frame without a step changes nothing,
nor does a second step in a frame. -/
theorem ramp_interpolates_falling :
    let p := source.after [.enter .init, .run 10, .enter .frame]
      (powerOn ⟨⟨#[2, 0, 5, 0, 10, 0, 3, 3, 0]⟩⟩ 1 0)
    let calls : List Call :=
      [.step, .enter .frame, .enter .frame, .step, .step, .enter .frame, .step]
    Interpolates 10 3 3 (interpolated 10 3 3) ∧
      p.emitted 0 calls = [⟨0, 0⟩, ⟨1, 10⟩, ⟨0, 0⟩, ⟨1, 7⟩, ⟨0, 0⟩, ⟨1, 3⟩] ∧
      ∃ w, (source.answerAll calls p).2.voices[0]? = some w ∧ w.pc = 8 ∧ w.activity = .ready := by
  intro p calls
  have hplays : p.Plays calls
      [[⟨0, 0, 0⟩, ⟨1, 10, 0⟩], [], [], [⟨0, 0, 0⟩, ⟨1, 7, 0⟩], [], [], [⟨0, 0, 0⟩, ⟨1, 3, 0⟩]]
      (source.answerAll calls p).2 := ⟨by decide, Prod.ext (by decide) rfl⟩
  have hramp : (Instruction.periodRamp 10 3 3).ramp? = some ⟨.period, 10, 3, 3, 0⟩ := rfl
  have hvoice : p.voices[0]? = some ⟨2, .ready, true⟩ := rfl
  obtain ⟨hhas, -, hcalls⟩ := ramp_interpolates
    hramp (by decide) rfl hvoice rfl rfl (by decide)
  obtain ⟨-, hset, w, hw, hends⟩ := hcalls _ _ _ hplays (by decide)
  exact ⟨hhas.interpolates, hset.trans (by decide), w, hw, hends (by decide)⟩

end Player

end Chiptune.Script
