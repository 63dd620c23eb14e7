import Chiptune.Proofs.Script.Program
import Mathlib.Data.Int.Cast.Basic

/-!
# What an instruction does

Executing an instruction makes the settings that stand before its first end of a
frame.  If it takes up a frame, the activity that it leaves behind stands for the
rest of its tokens (`Voice.execute_of_takesFrame`), one frame at a time; otherwise
there is no rest, and the voice is ready to go on
(`Voice.execute_of_not_takesFrame`).

The values of a ramp are computed with signs and brought into the range of the
registers.  Neither changes anything: they lie between the first value and the
last (`Ramp.value_eq`, `interpolated_le`).
-/

namespace Chiptune.Script

/-! ## Ramps -/

theorem interpolated_le {first last frames i : ℕ} (hi : i < frames) :
    interpolated first last frames i ≤ max first last := by
  unfold interpolated
  split
  · exact Nat.le_max_right _ _
  · split
    · have hpart : (last - first) * i / (frames - 1) ≤ last - first :=
        Nat.div_le_of_le_mul (by rw [Nat.mul_comm]; exact Nat.mul_le_mul_right _ (by omega))
      omega
    · exact Nat.le_trans (Nat.sub_le _ _) (Nat.le_max_left _ _)

/-- What a ramp over more than one frame computes with signs comes to the same without. -/
theorem Ramp.value_eq {ramp : Ramp} (h : ramp.position < ramp.frames) :
    ramp.value = (interpolated ramp.first ramp.last ramp.frames ramp.position : ℕ) := by
  obtain ⟨target, first, last, frames, position⟩ := ramp
  unfold Ramp.value interpolated
  dsimp only at h ⊢
  split
  · rfl
  · have hspan : (frames : ℤ) - 1 = ((frames - 1 : ℕ) : ℤ) := by omega
    rw [hspan]
    split
    case isTrue hle =>
      have hdiff : (last : ℤ) - first = ((last - first : ℕ) : ℤ) := by omega
      rw [hdiff, ← Int.natCast_mul, ← Int.ofNat_tdiv]
      rfl
    case isFalse hlt =>
      -- Downwards the quotient is negative, and rounding it towards zero is rounding its size down.
      have hdiff : (last : ℤ) - first = -((first - last : ℕ) : ℤ) := by omega
      have hpart : (first - last) * position / (frames - 1) ≤ first - last :=
        Nat.div_le_of_le_mul (by rw [Nat.mul_comm]; exact Nat.mul_le_mul_right _ (by omega))
      rw [hdiff, Int.neg_mul, Int.neg_tdiv, ← Int.natCast_mul, ← Int.ofNat_tdiv]
      omega

/-- The largest value that the registers of a target hold. -/
def RampTarget.limit : RampTarget → ℕ
  | .volume => 0xFF
  | .period => 0xFFFF

theorem RampTarget.map_set_settings (target : RampTarget) (channel : ℕ) {value : ℕ}
    (h : value ≤ target.limit) :
    (target.settings channel value).map .set = target.tokens channel value := by
  cases target with
  | volume =>
      have hvalue : min (Int.toNat value) 0xFF = value := Nat.min_eq_left h
      unfold RampTarget.settings RampTarget.tokens
      simp only [hvalue]
      rfl
  | period =>
      have hvalue : min (Int.toNat value) 0xFFFF = value := Nat.min_eq_left h
      unfold RampTarget.settings RampTarget.tokens
      simp only [hvalue]
      rfl

/-- A ramp is under way, between values that its registers hold. -/
structure Ramp.Valid (ramp : Ramp) : Prop where
  position : ramp.position < ramp.frames
  first : ramp.first ≤ ramp.target.limit
  last : ramp.last ≤ ramp.target.limit

/-- The frames of a ramp that are still to come. -/
def Ramp.tokens (channel : ℕ) (ramp : Ramp) : List Token :=
  (List.range' ramp.position (ramp.frames - ramp.position)).flatMap
    (ramp.target.frameTokens channel ramp.first ramp.last ramp.frames)

theorem Ramp.tokens_of_valid {ramp : Ramp} (h : ramp.Valid) (channel : ℕ) :
    ramp.tokens channel = (ramp.target.settings channel ramp.value).map .set ++
      .frameEnd :: Ramp.tokens channel { ramp with position := ramp.position + 1 } := by
  have hcount : ramp.frames - ramp.position = ramp.frames - (ramp.position + 1) + 1 := by
    have := h.position
    omega
  have hvalue : interpolated ramp.first ramp.last ramp.frames ramp.position ≤ ramp.target.limit :=
    Nat.le_trans (interpolated_le h.position) (Nat.max_le.mpr ⟨h.first, h.last⟩)
  unfold Ramp.tokens
  rw [hcount, List.range'_succ, List.flatMap_cons, RampTarget.frameTokens, List.append_assoc,
    Ramp.value_eq h.position, ramp.target.map_set_settings channel hvalue]
  rfl

/-! ## Activities -/

namespace Activity

/-- What a voice does before it reads on. -/
def tokens (channel : ℕ) : Activity → List Token
  | .stopped => []
  | .ready => []
  | .waiting remaining => List.replicate remaining .frameEnd
  | .ramping ramp => ramp.tokens channel

/-- A wait or a ramp takes up at least one more frame. -/
def Valid : Activity → Prop
  | .waiting remaining => 0 < remaining
  | .ramping ramp => ramp.Valid
  | _ => True

end Activity

/-- After a stage of a ramp, the voice ramps on or is ready, and the rest of the ramp is to come. -/
theorem Voice.continueRamp_spec {ramp : Ramp} (h : ramp.Valid) (channel : ℕ) (v : Voice) :
    ∃ settings activity, v.continueRamp channel ramp = (settings, v.takeFrame activity) ∧
      ramp.tokens channel = settings.map .set ++ .frameEnd :: activity.tokens channel ∧
      activity.Valid ∧ activity ≠ .stopped := by
  rw [Ramp.tokens_of_valid h]
  unfold Voice.continueRamp
  dsimp only
  by_cases hover : ramp.frames ≤ ramp.position + 1
  · refine ⟨ramp.target.settings channel ramp.value, .ready, by rw [if_pos hover], ?_, trivial,
      nofun⟩
    have hnone : ramp.frames - (ramp.position + 1) = 0 := by omega
    simp only [Ramp.tokens, hnone]
    rfl
  · refine ⟨ramp.target.settings channel ramp.value,
      .ramping { ramp with position := ramp.position + 1 }, by rw [if_neg hover], rfl,
      ⟨?_, h.first, h.last⟩, nofun⟩
    exact Nat.not_le.mp hover

/-- A voice in a wait or a ramp goes through one frame of it. -/
theorem Voice.advance_of_busy {activity : Activity} (hvalid : activity.Valid)
    (hrunning : activity ≠ .stopped) (hbusy : activity ≠ .ready) (memory : Memory)
    (channel pc : ℕ) :
    ∃ settings next, Voice.advance memory channel ⟨pc, activity, true⟩ =
        (.ok settings, ⟨pc, next, false⟩) ∧
      activity.tokens channel = settings.map .set ++ .frameEnd :: next.tokens channel ∧
      next.Valid ∧ next ≠ .stopped := by
  cases activity with
  | stopped => contradiction
  | ready => contradiction
  | waiting remaining =>
      match remaining, hvalid with
      | 1, _ => exact ⟨[], .ready, rfl, rfl, trivial, nofun⟩
      | remaining + 2, _ =>
          refine ⟨[], .waiting (remaining + 1), ?_, rfl, Nat.succ_pos remaining, nofun⟩
          have hmore : 1 < remaining + 2 := by omega
          simp [Voice.advance, Voice.takeFrame, hmore]
  | ramping ramp =>
      obtain ⟨settings, next, hcontinue, htokens, hnext, hrunning⟩ :=
        Voice.continueRamp_spec hvalid channel ⟨pc, .ramping ramp, true⟩
      refine ⟨settings, next, ?_, htokens, hnext, hrunning⟩
      unfold Voice.advance
      simp only [if_true]
      rw [hcontinue]
      rfl

theorem RampTarget.rampTokens_of_pos (target : RampTarget) (channel first last : ℕ) {frames : ℕ}
    (h : 0 < frames) :
    target.rampTokens channel first last frames =
      Ramp.tokens channel ⟨target, first, last, frames, 0⟩ := by
  unfold RampTarget.rampTokens
  rw [if_neg (Nat.ne_of_gt h), List.range_eq_range']
  rfl

theorem Voice.startRamp_spec {target : RampTarget} {first last frames : ℕ} (hframes : 0 < frames)
    (hfirst : first ≤ target.limit) (hlast : last ≤ target.limit) (channel : ℕ) (v : Voice) :
    ∃ settings activity,
      v.startRamp channel ⟨target, first, last, frames, 0⟩ = (settings, v.takeFrame activity) ∧
      target.rampTokens channel first last frames =
        settings.map .set ++ .frameEnd :: activity.tokens channel ∧
      activity.Valid ∧ activity ≠ .stopped := by
  rw [target.rampTokens_of_pos channel first last hframes]
  unfold Voice.startRamp
  rw [if_neg (Nat.ne_of_gt hframes)]
  exact v.continueRamp_spec ⟨hframes, hfirst, hlast⟩ channel

theorem Voice.startRamp_of_zero {target : RampTarget} {last : ℕ} (hlast : last ≤ target.limit)
    (first channel : ℕ) (v : Voice) :
    ∃ settings, v.startRamp channel ⟨target, first, last, 0, 0⟩ = (settings, v) ∧
      target.rampTokens channel first last 0 = settings.map .set :=
  ⟨target.settings channel last, rfl, (target.map_set_settings channel hlast).symm⟩

/-! ## Instructions -/

/-- Where the script goes on, if the next instruction in memory is at `address`. -/
def Instruction.next (address : ℕ) : Instruction → ℕ
  | .jump target => target.toNat
  | _ => address

/-- Where a program goes on is where the voice goes on. -/
theorem startOf_successor? {program : List Instruction} {instruction : Instruction}
    {base i next : ℕ} (hget : program[i]? = some instruction)
    (h : successor? base program i instruction = some next) :
    base + startOf program next =
      instruction.next (base + startOf program i + instruction.bytes.length) := by
  cases instruction with
  | stop => cases h
  | jump target => exact (startOf_of_positionAt? h).2
  | _ =>
      cases h
      rw [startOf_succ hget, Nat.add_assoc]
      rfl

theorem limit_byte (value : UInt8) : value.toNat ≤ RampTarget.volume.limit :=
  Nat.le_of_lt_succ value.toNat_lt

theorem limit_word (value : UInt16) : value.toNat ≤ RampTarget.period.limit :=
  Nat.le_of_lt_succ value.toNat_lt

theorem Voice.execute_of_takesFrame {instruction : Instruction} (h : instruction.takesFrame = true)
    (channel : ℕ) (v : Voice) :
    ∃ settings activity, v.execute channel instruction = (settings, v.takeFrame activity) ∧
      instruction.tokens channel = settings.map .set ++ .frameEnd :: activity.tokens channel ∧
      activity.Valid ∧ (activity = .stopped ↔ instruction = .stop) := by
  cases instruction with
  | stop => exact ⟨[], .stopped, rfl, rfl, trivial, iff_of_true rfl rfl⟩
  | volumeRamp first last frames =>
      have hframes : 0 < frames.toNat := of_decide_eq_true h
      obtain ⟨settings, activity, hstart, htokens, hvalid, hrunning⟩ :=
        v.startRamp_spec hframes (limit_byte first) (limit_byte last) channel
      exact ⟨settings, activity, hstart, htokens, hvalid, iff_of_false hrunning nofun⟩
  | periodRamp first last frames =>
      have hframes : 0 < frames.toNat := of_decide_eq_true h
      obtain ⟨settings, activity, hstart, htokens, hvalid, hrunning⟩ :=
        v.startRamp_spec hframes (limit_word first) (limit_word last) channel
      exact ⟨settings, activity, hstart, htokens, hvalid, iff_of_false hrunning nofun⟩
  | wait frames =>
      have hframes : 0 < frames.toNat := of_decide_eq_true h
      unfold Voice.execute Instruction.tokens
      dsimp only
      generalize frames.toNat = count at hframes
      match count, hframes with
      | 1, _ => exact ⟨[], .ready, rfl, rfl, trivial, iff_of_false nofun nofun⟩
      | count + 2, _ =>
          exact ⟨[], .waiting (count + 1), rfl, rfl, Nat.succ_pos count, iff_of_false nofun nofun⟩
  | wave slot => cases h
  | period value => cases h
  | volume value => cases h
  | jump target => cases h

theorem Voice.execute_of_not_takesFrame {instruction : Instruction}
    (h : instruction.takesFrame = false) (channel : ℕ) (v : Voice) :
    ∃ settings, v.execute channel instruction = (settings, { v with pc := instruction.next v.pc }) ∧
      instruction.tokens channel = settings.map .set := by
  cases instruction with
  | stop => cases h
  | wave slot => exact ⟨_, rfl, rfl⟩
  | period value =>
      exact ⟨_, rfl, (RampTarget.period.map_set_settings channel (limit_word value)).symm⟩
  | volume value =>
      refine ⟨_, rfl, ?_⟩
      have hvalue : value.toNat.toUInt8 = value := UInt8.ofNat_toNat
      unfold Instruction.tokens RampTarget.tokens
      simp only [hvalue]
      rfl
  | volumeRamp first last frames =>
      have hframes : frames.toNat = 0 := Nat.eq_zero_of_not_pos (of_decide_eq_false h)
      unfold Voice.execute Instruction.tokens
      simp only [hframes]
      exact v.startRamp_of_zero (limit_byte last) first.toNat channel
  | periodRamp first last frames =>
      have hframes : frames.toNat = 0 := Nat.eq_zero_of_not_pos (of_decide_eq_false h)
      unfold Voice.execute Instruction.tokens
      simp only [hframes]
      exact v.startRamp_of_zero (limit_word last) first.toNat channel
  | wait frames =>
      have hframes : frames.toNat = 0 := Nat.eq_zero_of_not_pos (of_decide_eq_false h)
      refine ⟨[], ?_, ?_⟩
      · unfold Voice.execute
        simp only [hframes]
        rfl
      · unfold Instruction.tokens
        simp only [hframes]
        rfl
  | jump target => exact ⟨[], rfl, rfl⟩

/-- A voice that is due and ready executes the instruction it is at, reading on behind it. -/
theorem Voice.advance_of_ready {memory : Memory} {instruction : Instruction} {v : Voice}
    (hdue : v.due = true) (hready : v.activity = .ready)
    (hbytes : memory.Holds v.pc instruction.bytes) (channel : ℕ) :
    v.advance memory channel =
      (.ok (execute channel instruction { v with pc := v.pc + instruction.bytes.length }).1,
        (execute channel instruction { v with pc := v.pc + instruction.bytes.length }).2) := by
  have hread := Instruction.read_of_holds hbytes
  unfold advance readOn
  rw [hdue, hready, if_pos rfl]
  dsimp only
  rw [hread]

end Chiptune.Script
