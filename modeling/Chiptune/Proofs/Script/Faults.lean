import Chiptune.Proofs.Script.Turns
import Chiptune.Proofs.Script.Unreadable

/-!
# The faults of scripts

A step of a player faults because one of its voices cannot have its turn.  The voices have
their turns one after the other, so the fault is that of the first such voice
(`first_of_inTurn`), and any such voice is enough (`exists_error_inTurn_iff`).

While the player plays, only a voice that is about to read can fault, and it does where no
instruction lies in memory (`Voice.advance_eq_error_iff`).  While it reads the table, a voice
faults if its entry is not all inside the memory (`Voice.load_eq_error_iff`).  What the steps
of a player come to is `Player.faults_exactly`.
-/

namespace Chiptune.Script

/-! ## Turns that fault -/

/-- The first fault of the voices is that of a voice all of whose predecessors do well. -/
theorem first_of_inTurn {turn : Turn} {channel : ℕ} {voices : List Voice} {fault : Fault}
    (h : (inTurn turn channel voices).1 = .error fault) :
    ∃ (i : ℕ) (v : Voice), voices[i]? = some v ∧ (turn (channel + i) v).1 = .error fault ∧
      ∀ j < i, ∀ w, voices[j]? = some w → ∃ settings, (turn (channel + j) w).1 = .ok settings := by
  induction voices generalizing channel with
  | nil => cases h
  | cons v rest ih =>
      rw [inTurn] at h
      rcases hturn : turn channel v with ⟨mine | settings, v'⟩
      · rw [hturn] at h
        cases h
        exact ⟨0, v, rfl, congrArg Prod.fst hturn, fun j hj => absurd hj (Nat.not_lt_zero j)⟩
      · rw [hturn] at h
        rcases hrest : inTurn turn (channel + 1) rest with ⟨other | more, rest'⟩
        · rw [hrest] at h
          cases h
          obtain ⟨i, w, hw, hfault, hbefore⟩ := ih (congrArg Prod.fst hrest)
          have hshift : ∀ j, channel + 1 + j = channel + (j + 1) := fun j => by omega
          rw [hshift] at hfault
          refine ⟨i + 1, w, hw, hfault, fun j hj u hu => ?_⟩
          cases j with
          | zero =>
              cases hu
              exact ⟨settings, congrArg Prod.fst hturn⟩
          | succ j =>
              rw [← hshift]
              exact hbefore j (Nat.lt_of_succ_lt_succ hj) u hu
        · rw [hrest] at h
          cases h

theorem exists_error_inTurn_iff {turn : Turn} {voices : List Voice} :
    (∃ fault, (inTurn turn 0 voices).1 = .error fault) ↔
      ∃ (i : ℕ) (v : Voice), voices[i]? = some v ∧ ∃ fault, (turn i v).1 = .error fault := by
  constructor
  · rintro ⟨fault, h⟩
    obtain ⟨i, v, hv, hfault, -⟩ := first_of_inTurn h
    rw [Nat.zero_add] at hfault
    exact ⟨i, v, hv, fault, hfault⟩
  · rintro ⟨i, v, hv, fault, hfault⟩
    rcases hturns : inTurn turn 0 voices with ⟨other | settings, after⟩
    · exact ⟨other, rfl⟩
    · obtain ⟨mine, hmine⟩ := succeeds_of_inTurn hturns i v hv
      rw [Nat.zero_add, hfault] at hmine
      cases hmine

/-! ## Voices that fault -/

namespace Voice

/-- The voice is about to read an instruction, but none lies there in memory. -/
structure Stuck (memory : Memory) (v : Voice) : Prop where
  due : v.due = true
  ready : v.activity = .ready
  unreadable : ∀ instruction : Instruction, ¬ memory.Holds v.pc instruction.bytes

variable {memory : Memory} {channel : ℕ} {v : Voice} {fault : Fault}

theorem advance_eq_error_iff :
    (v.advance memory channel).1 = .error fault ↔
      v.due = true ∧ v.activity = .ready ∧
        ∃ e, BreaksAt memory v.pc e ∧ fault = faultOf channel e := by
  obtain ⟨pc, activity, due⟩ := v
  constructor
  · intro h
    cases due with
    | false => cases h
    | true =>
        cases activity with
        | stopped => cases h
        | waiting remaining => cases h
        | ramping ramp => cases h
        | ready =>
            have hread : (readOn memory channel ⟨pc, .ready, true⟩).1 = .error fault := h
            unfold readOn at hread
            rcases hresult : (Instruction.read memory).run.run pc with ⟨e | instruction, after⟩
            · rw [hresult] at hread
              cases hread
              exact ⟨rfl, rfl, e, fails_iff_breaksAt.mp ⟨after, hresult⟩, rfl⟩
            · rw [hresult] at hread
              cases hread
  · rintro ⟨hdue, hready, e, hbreaks, rfl⟩
    dsimp only at hdue hready hbreaks
    subst hdue hready
    obtain ⟨after, hfails⟩ := Instruction.fails_of_breaksAt hbreaks
    show (readOn memory channel ⟨pc, .ready, true⟩).1 = .error (faultOf channel e)
    unfold readOn
    rw [hfails]

theorem exists_error_advance_iff :
    (∃ fault, (v.advance memory channel).1 = .error fault) ↔ v.Stuck memory := by
  simp only [advance_eq_error_iff]
  constructor
  · rintro ⟨fault, hdue, hready, e, hbreaks, -⟩
    exact ⟨hdue, hready, exists_breaksAt_iff.mp ⟨e, hbreaks⟩⟩
  · rintro ⟨hdue, hready, hnone⟩
    obtain ⟨e, hbreaks⟩ := exists_breaksAt_iff.mpr hnone
    exact ⟨faultOf channel e, hdue, hready, e, hbreaks, rfl⟩

theorem load_eq_error_iff {table : UInt16} :
    (v.load memory table channel).1 = .error fault ↔
      memory.size < table.toNat + 2 * channel + 2 ∧
        fault = .voiceAddress channel (memory.faultAt (table.toNat + 2 * channel)) := by
  unfold load Memory.readWord
  rcases Nat.lt_or_ge (table.toNat + 2 * channel + 1) memory.size with hlt | hle
  · rw [Memory.readPair_of_lt hlt]
    exact iff_of_false nofun fun h => by omega
  · rw [Memory.readPair_of_le hle]
    constructor
    · intro h
      cases h
      exact ⟨Nat.lt_succ_of_le hle, rfl⟩
    · rintro ⟨-, rfl⟩
      rfl

theorem load_of_lt {table : UInt16} (h : table.toNat + 2 * channel + 1 < memory.size) :
    v.load memory table channel =
      (.ok [], ofEntry (Memory.wordOf (memory.byteAt (table.toNat + 2 * channel + 1))
        (memory.byteAt (table.toNat + 2 * channel)))) := by
  unfold load Memory.readWord
  rw [Memory.readPair_of_lt h]
  rfl

/-- A voice whose entry has been read is at the start of its script, or has none. -/
theorem ofEntry_wordOf (high low : UInt8) :
    if 256 * high.toNat + low.toNat = 0xFFFF then
      (ofEntry (Memory.wordOf high low)).activity = .stopped
    else (ofEntry (Memory.wordOf high low)).activity = .ready ∧
      (ofEntry (Memory.wordOf high low)).pc = 256 * high.toNat + low.toNat := by
  have hunused : Memory.wordOf high low = unusedEntry ↔ 256 * high.toNat + low.toNat = 0xFFFF := by
    rw [← UInt16.toNat_inj, Memory.toNat_wordOf]
    rfl
  unfold ofEntry
  by_cases hentry : Memory.wordOf high low = unusedEntry
  · rw [if_pos (hunused.mp hentry), if_pos hentry]
    rfl
  · rw [if_neg (mt hunused.mpr hentry), if_neg hentry]
    exact ⟨rfl, Memory.toNat_wordOf high low⟩

end Voice

/-! ## Steps that fault -/

namespace Player

/-- What the voices do in a step. -/
def turn (p : Player) : Turn :=
  if p.loading then Voice.load p.memory p.table else Voice.advance p.memory

/-- The first voice of which something is true. -/
structure First (p : Player) (P : ℕ → Voice → Prop) (channel : ℕ) (v : Voice) : Prop where
  voice : p.voices[channel]? = some v
  holds : P channel v
  least : ∀ i < channel, ∀ w, p.voices[i]? = some w → ¬ P i w

/-- Where the table entry of a channel begins. -/
def slot (p : Player) (channel : ℕ) : ℕ :=
  p.table.toNat + 2 * channel

/-- A part of the table entry lies outside the memory. -/
def EntryCut (p : Player) (channel : ℕ) : Prop :=
  p.memory.size < p.slot channel + 2

/-- Afterwards the voice of a channel is what its table entry says: at the start of its
script, or without one. -/
def EntryRead (p next : Player) (channel : ℕ) : Prop :=
  ∃ low high v, p.memory.get? (p.slot channel) = some low ∧
    p.memory.get? (p.slot channel + 1) = some high ∧
    next.voices[channel]? = some v ∧ v.due = false ∧
    if 256 * high.toNat + low.toNat = 0xFFFF then v.activity = .stopped
    else v.activity = .ready ∧ v.pc = 256 * high.toNat + low.toNat

variable {p next : Player} {fault : Fault} {writes : List Write}

theorem step_eq_error_iff :
    p.step.1 = .error fault ↔ (inTurn p.turn 0 p.voices).1 = .error fault := by
  show (inTurn p.turn 0 p.voices).1.map (·.map (Setting.write p.tick)) = .error fault ↔ _
  cases (inTurn p.turn 0 p.voices).1 with
  | error raised =>
      constructor
      · rintro ⟨⟩
        rfl
      · rintro ⟨⟩
        rfl
  | ok settings => exact iff_of_false nofun nofun

/-- Any voice that faults in its turn makes the step fault. -/
theorem exists_error_step_iff {P : ℕ → Voice → Prop}
    (hP : ∀ channel v, (∃ fault, (p.turn channel v).1 = .error fault) ↔ P channel v) :
    (∃ fault, p.step.1 = .error fault) ↔
      ∃ (channel : ℕ) (v : Voice), p.voices[channel]? = some v ∧ P channel v := by
  simp only [step_eq_error_iff, exists_error_inTurn_iff, hP]

/-- The fault of a step is that of the first voice that faults in its turn. -/
theorem first_of_step {P : ℕ → Voice → Prop}
    (hP : ∀ channel v, (∃ fault, (p.turn channel v).1 = .error fault) ↔ P channel v)
    (h : p.step.1 = .error fault) :
    ∃ channel v, p.First P channel v ∧ (p.turn channel v).1 = .error fault := by
  obtain ⟨channel, v, hv, hfault, hbefore⟩ := first_of_inTurn (step_eq_error_iff.mp h)
  rw [Nat.zero_add] at hfault
  refine ⟨channel, v, ⟨hv, (hP channel v).mp ⟨fault, hfault⟩, fun i hi w hw hPw => ?_⟩, hfault⟩
  obtain ⟨settings, hok⟩ := hbefore i hi w hw
  obtain ⟨other, herror⟩ := (hP i w).mpr hPw
  rw [Nat.zero_add, herror] at hok
  cases hok

/-- In a step that does not fault, every voice has its turn. -/
theorem turns_of_step (hstep : p.step = (.ok writes, next)) :
    Succeeds p.turn 0 p.voices ∧
      writes = ((p.voices.zipIdx 0).flatMap fun (v, i) => settingsOf p.turn i v).map
        (Setting.write p.tick) ∧
      ∀ channel : ℕ, next.voices[channel]? =
        p.voices[channel]?.map fun v => (p.turn channel v).2 := by
  have hresult : p.step = ((inTurn p.turn 0 p.voices).1.map (·.map (Setting.write p.tick)),
      { p with
        voices := (inTurn p.turn 0 p.voices).2, loading := false, tick := nextTick p.tick }) := rfl
  have hsucceeds : Succeeds p.turn 0 p.voices := by
    rcases hturns : inTurn p.turn 0 p.voices with ⟨fault | settings, voices⟩
    · rw [hresult, hturns] at hstep
      cases hstep
    · exact succeeds_of_inTurn hturns
  rw [hresult, inTurn_of_succeeds hsucceeds] at hstep
  cases hstep
  exact ⟨hsucceeds, rfl, fun channel => by simp [Function.comp_def]⟩

/-- A step that reads the whole table makes no writes, and leaves every voice at its entry. -/
theorem entryRead_of_step (hloading : p.loading = true) (hstep : p.step = (.ok writes, next)) :
    writes = [] ∧ ∀ channel < p.voices.length, p.EntryRead next channel := by
  have hturn : p.turn = Voice.load p.memory p.table := if_pos hloading
  obtain ⟨hsucceeds, rfl, hvoices⟩ := turns_of_step hstep
  rw [hturn] at hsucceeds hvoices ⊢
  -- No entry is cut off, so all of them are read.
  have hinside : ∀ channel v, p.voices[channel]? = some v →
      p.slot channel + 1 < p.memory.size := by
    intro channel v hv
    obtain ⟨settings, hok⟩ := hsucceeds channel v hv
    rw [Nat.zero_add] at hok
    by_contra hcut
    have hsize := Nat.lt_succ_of_le (Nat.not_lt.mp hcut)
    have herror := (Voice.load_eq_error_iff (v := v)).mpr ⟨hsize, rfl⟩
    rw [herror] at hok
    cases hok
  constructor
  · rw [List.map_eq_nil_iff, List.flatMap_eq_nil_iff]
    rintro ⟨v, i⟩ hv
    simp only [settingsOf, Voice.load_of_lt (hinside i v (List.mk_mem_zipIdx_iff_getElem?.mp hv))]
  · intro channel hchannel
    have hv := List.getElem?_eq_getElem hchannel
    have hslot := hinside channel _ hv
    have hnext := hvoices channel
    rw [hv, Option.map_some, Voice.load_of_lt hslot] at hnext
    exact ⟨_, _, _, Memory.get?_of_lt (Nat.lt_of_succ_lt hslot), Memory.get?_of_lt hslot, hnext,
      Voice.due_ofEntry _, Voice.ofEntry_wordOf _ _⟩

/-- The faults of a player, whatever state it is in.

A step that plays faults exactly if there is a voice that is due and ready and has no
instruction to read.  The fault names the first such voice and says what breaks there.  A
step that reads the table faults exactly if some entry is not all inside the memory, and
names the first such voice and the first byte outside; otherwise every voice is at its
entry, or has none, and none is due. -/
theorem faults_exactly (p : Player) :
    (p.loading = false →
      ((∃ fault, p.step.1 = .error fault) ↔ ∃ v ∈ p.voices, v.Stuck p.memory) ∧
      ∀ fault, p.step.1 = .error fault → ∃ channel v e,
        p.First (fun _ w => w.Stuck p.memory) channel v ∧ BreaksAt p.memory v.pc e ∧
          fault = Voice.faultOf channel e) ∧
    (p.loading = true →
      ((∃ fault, p.step.1 = .error fault) ↔ ∃ channel < p.voices.length, p.EntryCut channel) ∧
      (∀ fault, p.step.1 = .error fault → ∃ channel v address,
        p.First (fun i _ => p.EntryCut i) channel v ∧
          IsLeast {x | p.slot channel ≤ x ∧ x < p.slot channel + 2 ∧ p.memory.size ≤ x} address ∧
            fault = .voiceAddress channel ⟨address⟩) ∧
      ∀ writes next, p.step = (.ok writes, next) →
        writes = [] ∧ ∀ channel < p.voices.length, p.EntryRead next channel) := by
  constructor
  · intro hloaded
    have hturn : p.turn = Voice.advance p.memory := if_neg (by simp [hloaded])
    have hstuck : ∀ channel v, (∃ fault, (p.turn channel v).1 = .error fault) ↔
        v.Stuck p.memory := by
      intro channel v
      rw [hturn]
      exact Voice.exists_error_advance_iff
    refine ⟨?_, fun fault h => ?_⟩
    · rw [exists_error_step_iff hstuck, exists_comm]
      simp only [List.mem_iff_getElem?, exists_and_right]
    · obtain ⟨channel, v, hfirst, hfault⟩ := first_of_step hstuck h
      rw [hturn] at hfault
      obtain ⟨-, -, e, hbreaks, rfl⟩ := Voice.advance_eq_error_iff.mp hfault
      exact ⟨channel, v, e, hfirst, hbreaks, rfl⟩
  · intro hloading
    have hturn : p.turn = Voice.load p.memory p.table := if_pos hloading
    have hcut : ∀ channel v, (∃ fault, (p.turn channel v).1 = .error fault) ↔
        p.EntryCut channel := by
      intro channel v
      simp only [hturn, Voice.load_eq_error_iff, exists_and_left, exists_eq, and_true]
      exact Iff.rfl
    refine ⟨?_, fun fault h => ?_, fun writes next h => entryRead_of_step hloading h⟩
    · rw [exists_error_step_iff hcut]
      constructor
      · rintro ⟨channel, v, hv, hentry⟩
        exact ⟨channel, (List.getElem?_eq_some_iff.mp hv).1, hentry⟩
      · rintro ⟨channel, hchannel, hentry⟩
        exact ⟨channel, _, List.getElem?_eq_getElem hchannel, hentry⟩
    · obtain ⟨channel, v, hfirst, hfault⟩ := first_of_step hcut h
      rw [hturn] at hfault
      obtain ⟨hentry, rfl⟩ := Voice.load_eq_error_iff.mp hfault
      exact ⟨channel, v, _, hfirst,
        Memory.isLeast_faultAt Nat.two_pos (Nat.not_le.mpr hentry), rfl⟩

/-- The first voice waits; the second one and the third one find no instruction.  The table
has no room for the entry of a fourth voice. -/
theorem faults_exactly_second :
    let memory : Memory := ⟨⟨#[5, 1, 0, 2, 9, 6, 3]⟩⟩
    let voices : List Voice := [⟨5, .waiting 2, true⟩, ⟨6, .ready, true⟩, ⟨4, .ready, true⟩]
    let playing : Player := ⟨memory, 0, voices, false, 0⟩
    let loading : Player := ⟨memory, 0, voices, true, 0⟩
    let crowded : Player := ⟨memory, 0, .idle :: voices, true, 0⟩
    playing.step.1 = .error (.voiceAddress 1 ⟨7⟩) ∧
      (∃ v, playing.First (fun _ w => w.Stuck memory) 1 v) ∧
      loading.step.1 = .ok [] ∧ loading.EntryRead loading.step.2 1 ∧
      crowded.step.1 = .error (.voiceAddress 3 ⟨7⟩) ∧
      ∃ v, crowded.First (fun i _ => crowded.EntryCut i) 3 v := by
  intro memory voices playing loading crowded
  have hplaying : playing.step.1 = .error (.voiceAddress 1 ⟨7⟩) := by decide
  have hloading : loading.step.1 = .ok [] := by decide
  have hcrowded : crowded.step.1 = .error (.voiceAddress 3 ⟨7⟩) := by decide
  obtain ⟨-, hstuck⟩ := (faults_exactly playing).1 rfl
  obtain ⟨-, -, hread⟩ := (faults_exactly loading).2 rfl
  obtain ⟨-, hcut, -⟩ := (faults_exactly crowded).2 rfl
  refine ⟨hplaying, ?_, hloading, (hread _ _ (Prod.ext hloading rfl)).2 1 (by decide), hcrowded, ?_⟩
  · obtain ⟨channel, v, e, hfirst, -, hfault⟩ := hstuck _ hplaying
    cases e with
    | unknown opcode address => cases hfault
    | outside fault =>
        cases hfault
        exact ⟨v, hfirst⟩
  · obtain ⟨channel, v, address, hfirst, -, hfault⟩ := hcut _ hcrowded
    cases hfault
    exact ⟨v, hfirst⟩

end Player

end Chiptune.Script
