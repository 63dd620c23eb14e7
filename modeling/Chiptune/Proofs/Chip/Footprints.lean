import Chiptune.Chip.Family
import Mathlib.Tactic.IntervalCases

/-!
# Footprints

What a channel does depends on a few bits of the registers, its footprint.  A write that leaves
these bits as they are is not heard on the channel, whatever it is for.  Some registers are
shared by all channels, and then each has its own bits of them, or all read the same bits.

| family | bits of its own | shared |
|---|---|---|
| programmable sound generator | tone period, two bits of the mixer, volume | envelope shape |
| sound interface device | frequency, control without sync and ring | master volume |
| Paula | all of its registers | |

The envelope shape is in the footprint only while the envelope is on, and the bit that takes a
voice off the output only in that of the last voice.  Where two dumps of registers agree on the
footprint of a channel, the channel does the same (`Family.decodes_footprint`).
-/

namespace Chiptune

/-- Some bits of a register. -/
structure RegisterBits where
  register : ℕ
  mask : UInt8

/-- All bits of a register. -/
def RegisterBits.whole (register : ℕ) : RegisterBits :=
  ⟨register, 0xFF⟩

namespace Registers

/-- The registers may have any values, and be missing, but for these bits. -/
def AgreeOn (bits : List RegisterBits) (regs other : Registers) : Prop :=
  ∀ b ∈ bits, regs.at b.register &&& b.mask = other.at b.register &&& b.mask

instance (bits : List RegisterBits) (regs other : Registers) :
    Decidable (AgreeOn bits regs other) :=
  inferInstanceAs (Decidable (∀ b ∈ bits, _))

namespace AgreeOn

variable {bits : List RegisterBits} {regs other : Registers} {register : ℕ}

/-- What agrees on some bits agrees on fewer. -/
theorem at_and (h : AgreeOn bits regs other) {mask part : UInt8}
    (hbits : ⟨register, mask⟩ ∈ bits) (hpart : mask &&& part = part) :
    regs.at register &&& part = other.at register &&& part :=
  calc regs.at register &&& part
      = regs.at register &&& mask &&& part := by rw [UInt8.and_assoc, hpart]
    _ = other.at register &&& mask &&& part := by rw [h _ hbits]
    _ = other.at register &&& part := by rw [UInt8.and_assoc, hpart]

theorem at_eq (h : AgreeOn bits regs other) (hbits : .whole register ∈ bits) :
    regs.at register = other.at register :=
  calc regs.at register
      = regs.at register &&& 0xFF := UInt8.and_neg_one.symm
    _ = other.at register &&& 0xFF := h _ hbits
    _ = other.at register := UInt8.and_neg_one

end AgreeOn

end Registers

open Registers (AgreeOn)

/-! ## The programmable sound generator -/

namespace Psg

/-- The bits that a channel depends on.  The envelope shape is one of them while the channel is
under the envelope. -/
def footprint (regs : Registers) (channel : ℕ) : List RegisterBits :=
  [.whole (channel * 2), ⟨channel * 2 + 1, 0x0F⟩, ⟨7, 0x09 <<< channel.toUInt8⟩,
    ⟨8 + channel, 0x1F⟩] ++
  if regs.at (8 + channel) &&& 0x10 = 0 then [] else [⟨13, 0x0F⟩]

theorem Mixer.switchesOff_congr {mixer other mask : UInt8}
    (h : mixer &&& (mask &&& bits) = other &&& (mask &&& bits)) :
    switchesOff mixer mask = switchesOff other mask := by
  unfold switchesOff
  simp only [h]

variable {regs other : Registers} {channel : ℕ}

theorem tonePeriod_congr (h : AgreeOn (footprint regs channel) regs other) :
    tonePeriod regs channel = tonePeriod other channel := by
  have hfine : regs.at (channel * 2) = other.at (channel * 2) := h.at_eq (by simp [footprint])
  have hcoarse : regs.at (channel * 2 + 1) &&& 0x0F = other.at (channel * 2 + 1) &&& 0x0F :=
    h ⟨channel * 2 + 1, 0x0F⟩ (by simp [footprint])
  unfold tonePeriod
  rw [hfine, hcoarse]

theorem mixer_congr (hchannel : channel < channelCount)
    (h : AgreeOn (footprint regs channel) regs other) :
    Mixer.toneOn (regs.at 7) channel = Mixer.toneOn (other.at 7) channel ∧
      Mixer.noiseOn (regs.at 7) channel = Mixer.noiseOn (other.at 7) channel := by
  have hbits : ⟨7, 0x09 <<< channel.toUInt8⟩ ∈ footprint regs channel := by simp [footprint]
  -- Neither the bit for the tone nor the one for the noise is any other.
  have hown : ∀ bit : UInt8, bit = 1 ∨ bit = 8 →
      0x09 <<< channel.toUInt8 &&& (bit <<< channel.toUInt8 &&& Mixer.bits) =
        bit <<< channel.toUInt8 &&& Mixer.bits := by
    unfold channelCount at hchannel
    rintro bit (rfl | rfl) <;> interval_cases channel <;> decide
  unfold Mixer.toneOn Mixer.noiseOn
  rw [Mixer.switchesOff_congr (h.at_and hbits (hown 1 (.inl rfl))),
    Mixer.switchesOff_congr (h.at_and hbits (hown 8 (.inr rfl)))]
  exact ⟨rfl, rfl⟩

theorem channel_congr (hchannel : channel < channelCount)
    (h : AgreeOn (footprint regs channel) regs other) (clock : Float) :
    Psg.channel regs channel clock = Psg.channel other channel clock := by
  have hamplitude : ⟨8 + channel, 0x1F⟩ ∈ footprint regs channel := by simp [footprint]
  have henvelope : regs.at (8 + channel) &&& 0x10 = other.at (8 + channel) &&& 0x10 :=
    h.at_and hamplitude (by decide)
  have hvolume : regs.at (8 + channel) &&& 0x0F = other.at (8 + channel) &&& 0x0F :=
    h.at_and hamplitude (by decide)
  obtain ⟨htone, hnoise⟩ := mixer_congr hchannel h
  unfold Psg.channel
  simp only [tonePeriod_congr h, htone, hnoise, henvelope, hvolume]
  by_cases hoff : other.at (8 + channel) &&& 0x10 = 0
  · simp only [hoff, bne_self_eq_false, Bool.false_eq_true, if_false]
  · have hshape : regs.at 13 &&& 0x0F = other.at 13 &&& 0x0F :=
      h ⟨13, 0x0F⟩ (by simp [footprint, henvelope, hoff])
    simp only [hshape]

/-- A period has twelve bits. -/
theorem tonePeriod_lt (regs : Registers) (channel : ℕ) :
    (tonePeriod regs channel).toNat < 4096 := by
  have hcoarse : (regs.at (channel * 2 + 1) &&& 0x0F).toNat ≤ 15 :=
    UInt8.le_iff_toNat_le.mp UInt8.and_le_right
  have hfine := (regs.at (channel * 2)).toNat_lt
  have hshifted : (regs.at (channel * 2 + 1) &&& 0x0F).toNat <<< 8 < 2 ^ 12 := by
    rw [Nat.shiftLeft_eq]
    omega
  unfold tonePeriod
  rw [UInt16.toNat_or, UInt16.toNat_shiftLeft, UInt8.toNat_toUInt16, UInt8.toNat_toUInt16]
  show _ < 2 ^ 12
  exact Nat.or_lt_two_pow (Nat.lt_trans hfine (by decide))
    (Nat.lt_of_le_of_lt (Nat.mod_le _ _) hshifted)

theorem volume_le (regs : Registers) (channel : ℕ) (clock : Float) :
    (Psg.channel regs channel clock).volume ≤ envelopeVolume := by
  unfold Psg.channel
  dsimp only
  split
  · exact UInt8.le_refl _
  · exact UInt8.and_le_right

theorem waveform_ne_off {clock : Float}
    (h : (Psg.channel regs channel clock).enabled = true) :
    (Psg.channel regs channel clock).waveform ≠ .off := by
  unfold Psg.channel at h ⊢
  dsimp only at h ⊢
  split
  · exact Waveform.noConfusion
  · cases htone : Mixer.toneOn (regs.at 7) channel <;>
      cases hnoise : Mixer.noiseOn (regs.at 7) channel <;> simp_all

end Psg

/-! ## The sound interface device -/

namespace Sid

/-- The bits that a voice depends on.  What takes the last voice off the output is none of the
bits of another voice. -/
def footprint (voice : ℕ) : List RegisterBits :=
  [.whole (voice * stride), .whole (voice * stride + 1), ⟨voice * stride + 4, 0xF9⟩,
    ⟨modeVolume, 0x0F⟩] ++
  if voice = 2 then [⟨modeVolume, lastVoiceOff⟩] else []

variable {regs other : Registers} {voice : ℕ}

/-- The lower four bits are shifted out. -/
theorem shiftRight_and_upper (control : UInt8) : (control &&& 0xF0) >>> 4 = control >>> 4 := by
  have hlt : (control >>> 4).toNat < 2 ^ 4 := by
    have hcontrol := control.toNat_lt
    rw [UInt8.toNat_shiftRight, Nat.shiftRight_eq_div_pow]
    exact Nat.div_lt_of_lt_mul hcontrol
  rw [UInt8.shiftRight_and, ← UInt8.toNat_inj, UInt8.toNat_and]
  exact Nat.and_two_pow_sub_one_of_lt_two_pow hlt

theorem waveform_congr {control other : UInt8} (h : control &&& 0xF0 = other &&& 0xF0) :
    waveform control = waveform other := by
  unfold waveform
  rw [← shiftRight_and_upper control, h, shiftRight_and_upper other]

theorem channel_congr (h : AgreeOn (footprint voice) regs other) (clock : Float) :
    Sid.channel regs voice clock = Sid.channel other voice clock := by
  have hlow : regs.at (voice * stride) = other.at (voice * stride) :=
    h.at_eq (by simp [footprint])
  have hhigh : regs.at (voice * stride + 1) = other.at (voice * stride + 1) :=
    h.at_eq (by simp [footprint])
  have hcontrol : ⟨voice * stride + 4, 0xF9⟩ ∈ footprint voice := by simp [footprint]
  have hgate : regs.at (voice * stride + 4) &&& gate = other.at (voice * stride + 4) &&& gate :=
    h.at_and hcontrol (by decide)
  have htest : regs.at (voice * stride + 4) &&& test = other.at (voice * stride + 4) &&& test :=
    h.at_and hcontrol (by decide)
  have hsource : waveform (regs.at (voice * stride + 4)) =
      waveform (other.at (voice * stride + 4)) :=
    waveform_congr (h.at_and hcontrol (by decide))
  have hvolume : regs.at modeVolume &&& 0x0F = other.at modeVolume &&& 0x0F :=
    h ⟨modeVolume, 0x0F⟩ (by simp [footprint])
  have hoff : (voice == 2 && regs.at modeVolume &&& lastVoiceOff != 0) =
      (voice == 2 && other.at modeVolume &&& lastVoiceOff != 0) := by
    by_cases hlast : voice = 2
    · have hbit := h ⟨modeVolume, lastVoiceOff⟩ (by simp [footprint, hlast])
      rw [hbit]
    · rw [beq_false_of_ne hlast, Bool.false_and, Bool.false_and]
  unfold Sid.channel frequencyRegister
  simp only [hlow, hhigh, hgate, htest, hsource, hvolume, hoff]

theorem waveform_ne_off {clock : Float} (h : (Sid.channel regs voice clock).enabled = true) :
    (Sid.channel regs voice clock).waveform ≠ .off := by
  unfold Sid.channel at h ⊢
  simp_all

end Sid

/-! ## Paula -/

namespace Paula

/-- A channel has registers of its own. -/
def footprint (channel : ℕ) : List RegisterBits :=
  (List.range stride).map fun offset => .whole (channel * stride + offset)

theorem channel_congr {regs other : Registers} {channel : ℕ}
    (h : AgreeOn (footprint channel) regs other) (clock : Float) :
    Paula.channel regs channel clock = Paula.channel other channel clock := by
  have hfield : ∀ field : Field, regs.at (channel * stride + field.offset) =
      other.at (channel * stride + field.offset) := by
    intro field
    refine h.at_eq (List.mem_map.mpr ⟨field.offset, List.mem_range.mpr ?_, rfl⟩)
    cases field <;> decide
  unfold Paula.channel
  simp only [hfield]

theorem volume_le (regs : Registers) (channel : ℕ) (clock : Float) :
    (Paula.channel regs channel clock).volume ≤ maxVolume := by
  unfold Paula.channel
  exact Std.min_le_right

theorem waveform_ne_off {regs : Registers} {channel : ℕ} {clock : Float}
    (h : (Paula.channel regs channel clock).enabled = true) :
    (Paula.channel regs channel clock).waveform ≠ .off := by
  unfold Paula.channel at h ⊢
  simp_all

end Paula

/-! ## Families -/

namespace Family

/-- The bits of the registers that a channel depends on. -/
def footprint : Family → Registers → ℕ → List RegisterBits
  | .psg, regs, channel => Psg.footprint regs channel
  | .sid, _, voice => Sid.footprint voice
  | .paula, _, channel => Paula.footprint channel

/-- The highest volume of a channel. -/
def loudest : Family → ℕ
  | .psg => 15
  | .sid => 15
  | .paula => 64

variable {family : Family} {regs other : Registers} {channel : ℕ}

theorem channel_congr (hchannel : channel < family.channelCount)
    (h : AgreeOn (family.footprint regs channel) regs other) (clock : Float) :
    family.channel regs channel clock = family.channel other channel clock := by
  cases family with
  | psg => exact Psg.channel_congr hchannel h clock
  | sid => exact Sid.channel_congr h clock
  | paula => exact Paula.channel_congr h clock

theorem volume_le (family : Family) (regs : Registers) (channel : ℕ) (clock : Float) :
    (family.channel regs channel clock).volume.toNat ≤ family.loudest := by
  cases family with
  | psg => exact UInt8.le_iff_toNat_le.mp (Psg.volume_le ..)
  | sid => exact UInt8.le_iff_toNat_le.mp UInt8.and_le_right
  | paula => exact UInt8.le_iff_toNat_le.mp (Paula.volume_le ..)

theorem waveform_ne_off {clock : Float}
    (h : (family.channel regs channel clock).enabled = true) :
    (family.channel regs channel clock).waveform ≠ .off := by
  cases family with
  | psg => exact Psg.waveform_ne_off h
  | sid => exact Sid.waveform_ne_off h
  | paula => exact Paula.waveform_ne_off h

/-- What can be said of a channel that is heard. -/
structure Sounds (family : Family) (c : Channel) : Prop where
  waveform : c.waveform ≠ .off
  volume_pos : 1 ≤ c.volume.toNat
  volume_le : c.volume.toNat ≤ family.loudest
  period_lt : family = .psg → c.period.toNat < 4096

theorem sounds_of_audible {clock : Float}
    (h : (family.channel regs channel clock).audible = true) :
    family.Sounds (family.channel regs channel clock) := by
  obtain ⟨henabled, hvolume, -⟩ := Channel.audible_iff.mp h
  refine ⟨waveform_ne_off henabled, UInt8.lt_iff_toNat_lt.mp hvolume, family.volume_le .., ?_⟩
  rintro rfl
  show (Psg.tonePeriod regs channel).toUInt32.toNat < 4096
  rw [UInt16.toNat_toUInt32]
  exact Psg.tonePeriod_lt regs channel

/-- A channel is decoded from its footprint and nothing else.  The two dumps of registers need
not be of one length. -/
theorem decodes_footprint (hchannel : channel < family.channelCount) (regs : Registers)
    (clock : Float) :
    (∀ other, AgreeOn (family.footprint regs channel) regs other →
      family.channel regs channel clock = family.channel other channel clock) ∧
    ((family.channel regs channel clock).audible = true →
      family.Sounds (family.channel regs channel clock)) :=
  ⟨fun _ h => channel_congr hchannel h clock, sounds_of_audible⟩

/-- A channel under the envelope, of which the second dump has all that the first one has. -/
theorem decodes_footprint_envelope :
    let regs : Registers := #[0, 0, 0xAC, 0x01, 0, 0, 0, 0x2D, 0, 0x10, 0, 0, 0, 0x0A]
    let other : Registers := #[7, 7, 0xAC, 0xF1, 7, 7, 7, 0xED, 7, 0xF0, 7, 7, 7, 0x5A, 7, 7]
    1 < Family.psg.channelCount ∧ AgreeOn (Family.psg.footprint regs 1) regs other ∧
      Family.psg.channel regs 1 1773400.0 = Family.psg.channel other 1 1773400.0 ∧
      (Family.psg.channel regs 1 1773400.0).audible = true ∧
      Family.psg.Sounds (Family.psg.channel regs 1 1773400.0) := by
  intro regs other
  have hchannel : 1 < Family.psg.channelCount := by decide
  have hagree : AgreeOn (Family.psg.footprint regs 1) regs other := by decide
  have haudible : (Family.psg.channel regs 1 1773400.0).audible = true := by decide
  obtain ⟨hsame, hsounds⟩ := decodes_footprint hchannel regs 1773400.0
  exact ⟨hchannel, hagree, hsame other hagree, haudible, hsounds haudible⟩

end Family

end Chiptune
