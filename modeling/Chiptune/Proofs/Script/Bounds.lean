import Chiptune.Proofs.Extraction.Channels
import Chiptune.Proofs.Memory.Operations
import Chiptune.Proofs.Script.Interpolation
import Chiptune.Proofs.Script.Schedules

/-!
# The numbers of a player stay small

A player keeps natural numbers, and computes with them as if there were no end to them.  This
file shows that words of fixed size would do.  `Voice.Bounded` says how large the numbers of a
voice can become: a voice reads its script at the end of the memory at most, or where a jump of
16 bits has taken it, and its waits and ramps are those of operands of 8 bits.  Every turn of a
voice keeps this, also a turn that faults with only some of an instruction read, and so does
everything that can be asked of a player (`Player.bounded_after`).

So much for the numbers that are kept.  For those that are computed there is a second
interpreter, `Player.checkedStep?`.  It stops with nothing where a number does not fit in the
bits that are meant for it: 32 for addresses and for the places of table entries, 8 for the
frames of a ramp and for registers.  In any state that a player comes to, it does the same as
the first one (`Player.bounded_after`).
-/

namespace Chiptune.Script

/-! ## Computing with so many bits -/

/-- The number, if so many bits can hold it. -/
def narrow? (bits n : ℕ) : Option ℕ :=
  if n < Nat.pow 2 bits then some n else none

theorem narrow?_of_lt {bits n : ℕ} (h : n < Nat.pow 2 bits) : narrow? bits n = some n :=
  if_pos h

/-- Reading from an address of 32 bits on, which may come to nothing. -/
abbrev CheckedReading := ExceptT Unreadable (StateT ℕ Option)

/-- Reads what `access` finds, if the address behind it has 32 bits. -/
def CheckedReading.take {α : Type} (count : ℕ) (access : ℕ → Except AddressFault α) :
    CheckedReading α := do
  let address ← get
  match access address with
  | .ok value => do
    let next ← (narrow? 32 (address + count) : StateT ℕ Option ℕ)
    set next
    pure value
  | .error fault => throw (.outside fault)

/-- Reads an instruction, checking every address on the way. -/
def Instruction.checkedRead (memory : Memory) : CheckedReading Instruction := do
  let byte := CheckedReading.take 1 memory.readByte
  let word := CheckedReading.take 2 memory.readWordHighFirst
  let address ← get
  let opcode ← byte
  match opcode.toNat with
  | 0 => pure .stop
  | 1 => do
    let slot ← byte
    pure (.wave slot)
  | 2 => do
    let value ← word
    pure (.period value)
  | 3 => do
    let value ← byte
    pure (.volume value)
  | 4 => do
    let first ← byte
    let last ← byte
    let frames ← byte
    pure (.volumeRamp first last frames)
  | 5 => do
    let first ← word
    let last ← word
    let frames ← byte
    pure (.periodRamp first last frames)
  | 6 => do
    let frames ← byte
    pure (.wait frames)
  | 7 => do
    let target ← word
    pure (.jump target)
  | _ => throw (.unknown opcode address)

/-- The number of a register, if 8 bits can hold it. -/
def checkedRegister? (channel : ℕ) (field : Paula.Field) : Option UInt8 :=
  (narrow? 8 (channel * Paula.stride + field.offset)).map Nat.toUInt8

def RampTarget.checkedSettings? (target : RampTarget) (channel : ℕ) (value : ℤ) :
    Option (List Setting) :=
  match target with
  | .volume => do
    let register ← checkedRegister? channel .volume
    return [⟨register, (min value.toNat 0xFF).toUInt8⟩]
  | .period => do
    let high ← checkedRegister? channel .periodHigh
    let low ← checkedRegister? channel .periodLow
    let value := min value.toNat 0xFFFF
    return [⟨high, (value / 256).toUInt8⟩, ⟨low, (value % 256).toUInt8⟩]

namespace Voice

def checkedContinueRamp? (channel : ℕ) (ramp : Ramp) (v : Voice) :
    Option (List Setting × Voice) := do
  let value ← ramp.checkedValue?
  let settings ← ramp.target.checkedSettings? channel value
  let position ← narrow? 8 (ramp.position + 1)
  let activity := if ramp.frames ≤ position then .ready else .ramping { ramp with position }
  return (settings, v.takeFrame activity)

def checkedStartRamp? (channel : ℕ) (ramp : Ramp) (v : Voice) : Option (List Setting × Voice) :=
  if ramp.frames = 0 then do
    let settings ← ramp.target.checkedSettings? channel ramp.last
    return (settings, v)
  else v.checkedContinueRamp? channel ramp

def checkedExecute? (channel : ℕ) (instruction : Instruction) (v : Voice) :
    Option (List Setting × Voice) :=
  match instruction with
  | .stop => some ([], v.takeFrame .stopped)
  | .wave slot => do
    let register ← checkedRegister? channel .slot
    return ([⟨register, slot⟩], v)
  | .period value => do
    let settings ← RampTarget.period.checkedSettings? channel value.toNat
    return (settings, v)
  | .volume value => do
    let register ← checkedRegister? channel .volume
    return ([⟨register, value⟩], v)
  | .volumeRamp first last frames =>
    v.checkedStartRamp? channel ⟨.volume, first.toNat, last.toNat, frames.toNat, 0⟩
  | .periodRamp first last frames =>
    v.checkedStartRamp? channel ⟨.period, first.toNat, last.toNat, frames.toNat, 0⟩
  | .wait frames =>
    match frames.toNat with
    | 0 => some ([], v)
    | 1 => some ([], v.takeFrame .ready)
    | frames => some ([], v.takeFrame (.waiting (frames - 1)))
  | .jump target => some ([], { v with pc := target.toNat })

def checkedReadOn? (memory : Memory) (channel : ℕ) (v : Voice) :
    Option (Except Fault (List Setting) × Voice) := do
  match ← (Instruction.checkedRead memory).run.run v.pc with
  | (.error e, pc) => return (.error (faultOf channel e), { v with pc })
  | (.ok instruction, pc) =>
    let (settings, v) ← checkedExecute? channel instruction { v with pc }
    return (.ok settings, v)

def checkedAdvance? (memory : Memory) (channel : ℕ) (v : Voice) :
    Option (Except Fault (List Setting) × Voice) :=
  if v.due then
    match v.activity with
    | .stopped => some (.ok [], { v with due := false })
    | .waiting remaining =>
      some (.ok [], v.takeFrame (if 1 < remaining then .waiting (remaining - 1) else .ready))
    | .ramping ramp => do
      let (settings, v) ← v.checkedContinueRamp? channel ramp
      return (.ok settings, v)
    | .ready => v.checkedReadOn? memory channel
  else some (.ok [], v)

def checkedLoad? (memory : Memory) (table : UInt16) (channel : ℕ) (v : Voice) :
    Option (Except Fault (List Setting) × Voice) := do
  let offset ← narrow? 32 (2 * channel)
  let place ← narrow? 32 (table.toNat + offset)
  match memory.readWord place with
  | .error fault => return (.error (.voiceAddress channel fault), v)
  | .ok entry => return (.ok [], if entry = unusedEntry then idle else atStart entry)

end Voice

def checkedInTurn? (turn : ℕ → Voice → Option (Except Fault (List Setting) × Voice))
    (channel : ℕ) : List Voice → Option (Except Fault (List Setting) × List Voice)
  | [] => some (.ok [], [])
  | v :: rest => do
    match ← turn channel v with
    | (.error fault, v) => return (.error fault, v :: rest)
    | (.ok settings, v) =>
      match ← checkedInTurn? turn (channel + 1) rest with
      | (.error fault, rest) => return (.error fault, v :: rest)
      | (.ok more, rest) => return (.ok (settings ++ more), v :: rest)

/-- A step of the player, unless a number does not fit. -/
def Player.checkedStep? (p : Player) : Option (Except Fault (List Write) × Player) := do
  let turn := if p.loading then Voice.checkedLoad? p.memory p.table
    else Voice.checkedAdvance? p.memory
  let (result, voices) ← checkedInTurn? turn 0 p.voices
  return (result.map (·.map (Setting.write p.tick)),
    { p with voices, loading := false, tick := nextTick p.tick })

/-! ## What is read is inside the memory -/

/-- A reading stays within a limit, and so it is the same with all of its addresses checked, if
32 bits can hold the limit. -/
structure Reading.Stays {α : Type} (limit : ℕ) (checked : CheckedReading α) (reading : Reading α) :
    Prop where
  le : ∀ start ≤ limit, (reading.run.run start).2 ≤ limit
  same : limit < Nat.pow 2 32 → ∀ start ≤ limit,
    checked.run.run start = some (reading.run.run start)

namespace Reading.Stays

variable {α β : Type} {limit : ℕ} {checked : CheckedReading α} {reading : Reading α}

theorem pure (limit : ℕ) (value : α) : Stays limit (Pure.pure value) (Pure.pure value) where
  le _ h := h
  same _ _ _ := rfl

theorem throw (limit : ℕ) (e : Unreadable) :
    Stays limit (MonadExcept.throw e : CheckedReading α) (MonadExcept.throw e : Reading α) where
  le _ h := h
  same _ _ _ := rfl

theorem get (limit : ℕ) : Stays limit MonadState.get MonadState.get where
  le _ h := h
  same _ _ _ := rfl

theorem bind {checkedNext : α → CheckedReading β} {next : α → Reading β}
    (h : Stays limit checked reading)
    (hnext : ∀ value, Stays limit (checkedNext value) (next value)) :
    Stays limit (checked >>= checkedNext) (reading >>= next) where
  le start hstart := by
    have hle := h.le start hstart
    rw [ExceptT.run_bind]
    simp only [StateT.run_bind]
    rcases hresult : reading.run.run start with ⟨e | value, after⟩
    · rw [hresult] at hle
      exact hle
    · rw [hresult] at hle
      exact (hnext value).le after hle
  same hlimit start hstart := by
    have hle := h.le start hstart
    have hsame := h.same hlimit start hstart
    rw [ExceptT.run_bind, ExceptT.run_bind]
    simp only [StateT.run_bind, hsame, Option.bind_eq_bind, Option.bind_some]
    rcases hresult : reading.run.run start with ⟨e | value, after⟩
    · rfl
    · rw [hresult] at hle
      exact (hnext value).same hlimit after hle

theorem moveTo {next : ℕ} (h : next ≤ limit) (value : α) :
    Stays limit
      (do
        let next ← (narrow? 32 next : StateT ℕ Option ℕ)
        set next
        Pure.pure value)
      (do
        set next
        Pure.pure value) where
  le _ _ := h
  same hlimit start _ := by
    rw [narrow?_of_lt (h.trans_lt hlimit)]
    rfl

theorem take {count : ℕ} {access : ℕ → Except AddressFault α}
    (h : ∀ address value, access address = .ok value → address + count ≤ limit) :
    Stays limit (CheckedReading.take count access) (Reading.take count access) := by
  refine (get limit).bind fun address => ?_
  rcases haccess : access address with fault | value
  · exact throw limit (.outside fault)
  · exact moveTo (h address value haccess) value

variable {memory : Memory}

theorem byte (h : memory.size ≤ limit) :
    Stays limit (CheckedReading.take 1 memory.readByte) (Reading.byte memory) := by
  refine take fun address value hread => ?_
  rcases Nat.lt_or_ge address memory.size with hlt | hge
  · exact Nat.le_trans hlt h
  · cases (Memory.readByte_of_le hge).symm.trans hread

theorem word (h : memory.size ≤ limit) :
    Stays limit (CheckedReading.take 2 memory.readWordHighFirst) (Reading.word memory) := by
  refine take fun address value hread => ?_
  rcases Nat.lt_or_ge (address + 1) memory.size with hlt | hge
  · exact Nat.le_trans hlt h
  · rw [Memory.readWordHighFirst, Memory.readPair_of_le hge] at hread
    cases hread

end Reading.Stays

/-- Reading an instruction, whether all of it is there or not, comes to no address behind the
memory unless it begins there. -/
theorem Instruction.stays_read {memory : Memory} {limit : ℕ} (h : memory.size ≤ limit) :
    Reading.Stays limit (Instruction.checkedRead memory) (Instruction.read memory) := by
  have hbyte := Reading.Stays.byte h
  have hword := Reading.Stays.word h
  refine (Reading.Stays.get limit).bind fun address => hbyte.bind fun opcode => ?_
  generalize opcode.toNat = number
  match number with
  | 0 => exact .pure limit _
  | 1 => exact hbyte.bind fun _ => .pure limit _
  | 2 => exact hword.bind fun _ => .pure limit _
  | 3 => exact hbyte.bind fun _ => .pure limit _
  | 4 => exact hbyte.bind fun _ => hbyte.bind fun _ => hbyte.bind fun _ => .pure limit _
  | 5 => exact hword.bind fun _ => hword.bind fun _ => hbyte.bind fun _ => .pure limit _
  | 6 => exact hbyte.bind fun _ => .pure limit _
  | 7 => exact hword.bind fun _ => .pure limit _
  | _ + 8 => exact .throw limit _

/-! ## The numbers of voices -/

/-- How far waits and ramps can be: not yet over, and with as many frames at most as an operand
can ask for. -/
def Activity.Bounded : Activity → Prop
  | .stopped => True
  | .ready => True
  | .waiting remaining => 1 ≤ remaining ∧ remaining < 0xFF
  | .ramping ramp => 1 ≤ ramp.position ∧ ramp.Valid ∧ ramp.frames ≤ 0xFF

/-- What is true of the voices of a player whose memory has so many bytes. -/
structure Voice.Bounded (size : ℕ) (v : Voice) : Prop where
  running_of_due : v.due = true → v.activity ≠ .stopped
  activity : v.activity.Bounded
  pc_le : v.pc ≤ max 0xFFFF size

namespace Voice

variable {memory : Memory} {size channel : ℕ} {v : Voice} {ramp : Ramp}

theorem bounded_idle (size : ℕ) : idle.Bounded size :=
  ⟨nofun, trivial, Nat.zero_le _⟩

theorem bounded_atStart (size : ℕ) (entry : UInt16) : (atStart entry).Bounded size :=
  ⟨nofun, trivial, (Nat.le_of_lt_succ entry.toNat_lt).trans (Nat.le_max_left _ _)⟩

theorem Bounded.takeFrame (h : v.Bounded size) {activity : Activity}
    (hactivity : activity.Bounded) :
    (v.takeFrame activity).Bounded size :=
  ⟨nofun, hactivity, h.pc_le⟩

theorem Bounded.beginFrame (h : v.Bounded size) : v.beginFrame.Bounded size :=
  ⟨fun hdue hstopped => Bool.noConfusion ((v.settled_beginFrame hstopped).symm.trans hdue),
    h.activity, h.pc_le⟩

theorem Bounded.load (h : v.Bounded size) {table : UInt16} :
    (v.load memory table channel).2.Bounded size := by
  unfold Voice.load
  cases memory.readWord (table.toNat + 2 * channel) with
  | error fault => exact h
  | ok entry =>
      dsimp only
      split
      · exact bounded_idle size
      · exact bounded_atStart size entry

theorem Bounded.continueRamp (h : v.Bounded size) (hvalid : ramp.Valid)
    (hframes : ramp.frames ≤ 0xFF) (channel : ℕ) :
    (v.continueRamp channel ramp).2.Bounded size := by
  refine h.takeFrame ?_
  split
  case isTrue => trivial
  case isFalse hmore =>
    exact ⟨Nat.succ_pos ramp.position, ⟨Nat.not_le.mp hmore, hvalid.first, hvalid.last⟩, hframes⟩

theorem Bounded.startRamp (h : v.Bounded size) {target : RampTarget} {first last : ℕ}
    (hfirst : first ≤ target.limit) (hlast : last ≤ target.limit) (frames : UInt8) :
    (v.startRamp channel ⟨target, first, last, frames.toNat, 0⟩).2.Bounded size := by
  unfold Voice.startRamp
  split
  case isTrue => exact h
  case isFalse hframes =>
    exact h.continueRamp ⟨Nat.pos_of_ne_zero hframes, hfirst, hlast⟩ (limit_byte frames) channel

theorem Bounded.execute (h : v.Bounded size) (instruction : Instruction) :
    (v.execute channel instruction).2.Bounded size := by
  cases instruction with
  | stop => exact h.takeFrame trivial
  | wave slot => exact h
  | period value => exact h
  | volume value => exact h
  | volumeRamp first last frames => exact h.startRamp (limit_byte first) (limit_byte last) frames
  | periodRamp first last frames => exact h.startRamp (limit_word first) (limit_word last) frames
  | wait frames =>
      have hframes : frames.toNat ≤ 0xFF := limit_byte frames
      unfold Voice.execute
      dsimp only
      generalize frames.toNat = count at hframes
      match count with
      | 0 => exact h
      | 1 => exact h.takeFrame trivial
      | count + 2 => exact h.takeFrame ⟨Nat.succ_pos count, by omega⟩
  | jump target =>
      exact ⟨h.running_of_due, h.activity,
        (Nat.le_of_lt_succ target.toNat_lt).trans (Nat.le_max_left _ _)⟩

theorem Bounded.readOn (h : v.Bounded memory.size) :
    (v.readOn memory channel).2.Bounded memory.size := by
  have hpc := (Instruction.stays_read (Nat.le_max_right 0xFFFF memory.size)).le v.pc h.pc_le
  unfold Voice.readOn
  rcases hresult : (Instruction.read memory).run.run v.pc with ⟨e | instruction, pc⟩
  all_goals rw [hresult] at hpc
  · exact ⟨h.running_of_due, h.activity, hpc⟩
  · have hread : ({ v with pc } : Voice).Bounded memory.size :=
      ⟨h.running_of_due, h.activity, hpc⟩
    exact hread.execute instruction

theorem Bounded.advance (h : v.Bounded memory.size) :
    (v.advance memory channel).2.Bounded memory.size := by
  have hactivity := h.activity
  unfold Voice.advance
  split
  case isFalse => exact h
  case isTrue hdue =>
    cases hcase : v.activity with
    | stopped => exact absurd hcase (h.running_of_due hdue)
    | ready => exact h.readOn
    | waiting remaining =>
        rw [hcase] at hactivity
        refine h.takeFrame ?_
        split
        case isTrue hmore => exact ⟨by omega, by have := hactivity.2; omega⟩
        case isFalse => trivial
    | ramping ramp =>
        rw [hcase] at hactivity
        exact h.continueRamp hactivity.2.1 hactivity.2.2 channel

end Voice

/-! ## Nothing is lost by checking -/

section
variable {channel : ℕ} (hchannel : channel < 64)
include hchannel

theorem checkedRegister?_eq (field : Paula.Field) :
    checkedRegister? channel field = some (Paula.register channel field) := by
  unfold checkedRegister?
  rw [narrow?_of_lt (Paula.offset_lt_of_room hchannel field)]
  rfl

theorem RampTarget.checkedSettings?_eq (target : RampTarget) (value : ℤ) :
    target.checkedSettings? channel value = some (target.settings channel value) := by
  cases target <;> simp only [checkedSettings?, checkedRegister?_eq hchannel, settings] <;> rfl

namespace Voice

variable {memory : Memory} {v : Voice} {ramp : Ramp}

theorem checkedContinueRamp?_eq (hvalid : ramp.Valid) (hframes : ramp.frames ≤ 0xFF) :
    v.checkedContinueRamp? channel ramp = some (v.continueRamp channel ramp) := by
  have hlast : ramp.position < ramp.frames := hvalid.position
  have hposition : narrow? 8 (ramp.position + 1) = some (ramp.position + 1) :=
    narrow?_of_lt (show ramp.position + 1 < 256 by omega)
  have hvalue : ramp.checkedValue? = some ramp.value := by
    rw [Ramp.checkedValue?_eq hvalid hframes, Ramp.value_eq hvalid.position]
  unfold checkedContinueRamp?
  simp only [hvalue, hposition, ramp.target.checkedSettings?_eq hchannel, Option.bind_eq_bind,
    Option.bind_some]
  rfl

theorem checkedStartRamp?_eq {target : RampTarget} {first last : ℕ}
    (hfirst : first ≤ target.limit) (hlast : last ≤ target.limit) (frames : UInt8) :
    v.checkedStartRamp? channel ⟨target, first, last, frames.toNat, 0⟩ =
      some (v.startRamp channel ⟨target, first, last, frames.toNat, 0⟩) := by
  unfold checkedStartRamp? startRamp
  split
  case isTrue =>
    rw [target.checkedSettings?_eq hchannel]
    rfl
  case isFalse hframes =>
    exact checkedContinueRamp?_eq hchannel ⟨Nat.pos_of_ne_zero hframes, hfirst, hlast⟩
      (limit_byte frames)

theorem checkedExecute?_eq (instruction : Instruction) (v : Voice) :
    v.checkedExecute? channel instruction = some (v.execute channel instruction) := by
  cases instruction with
  | stop => rfl
  | wave slot =>
      simp only [checkedExecute?, checkedRegister?_eq hchannel]
      rfl
  | period value =>
      simp only [checkedExecute?, RampTarget.checkedSettings?_eq hchannel]
      rfl
  | volume value =>
      simp only [checkedExecute?, checkedRegister?_eq hchannel]
      rfl
  | volumeRamp first last frames =>
      exact checkedStartRamp?_eq hchannel (limit_byte first) (limit_byte last) frames
  | periodRamp first last frames =>
      exact checkedStartRamp?_eq hchannel (limit_word first) (limit_word last) frames
  | wait frames =>
      unfold checkedExecute? execute
      dsimp only
      generalize frames.toNat = count
      match count with
      | 0 | 1 | _ + 2 => rfl
  | jump target => rfl

theorem checkedReadOn?_eq (hsize : memory.size < Nat.pow 2 32) (h : v.Bounded memory.size) :
    v.checkedReadOn? memory channel = some (v.readOn memory channel) := by
  have hlimit : max 0xFFFF memory.size < Nat.pow 2 32 := Nat.max_lt.mpr ⟨by decide, hsize⟩
  have hread := (Instruction.stays_read (Nat.le_max_right 0xFFFF memory.size)).same hlimit
    v.pc h.pc_le
  unfold checkedReadOn? readOn
  rw [hread, Option.bind_eq_bind, Option.bind_some]
  rcases (Instruction.read memory).run.run v.pc with ⟨e | instruction, pc⟩
  · rfl
  · simp only [checkedExecute?_eq hchannel]
    rfl

theorem checkedAdvance?_eq (hsize : memory.size < Nat.pow 2 32) (h : v.Bounded memory.size) :
    v.checkedAdvance? memory channel = some (v.advance memory channel) := by
  have hactivity := h.activity
  unfold checkedAdvance? advance
  split
  case isFalse => rfl
  case isTrue =>
    cases hcase : v.activity with
    | stopped => rfl
    | waiting remaining => rfl
    | ready => exact checkedReadOn?_eq hchannel hsize h
    | ramping ramp =>
        rw [hcase] at hactivity
        simp only [checkedContinueRamp?_eq hchannel hactivity.2.1 hactivity.2.2]
        rfl

theorem checkedLoad?_eq (table : UInt16) (v : Voice) :
    v.checkedLoad? memory table channel = some (v.load memory table channel) := by
  have htable : table.toNat < 65536 := table.toNat_lt
  have hoffset : narrow? 32 (2 * channel) = some (2 * channel) :=
    narrow?_of_lt (show 2 * channel < 4294967296 by omega)
  have hplace : narrow? 32 (table.toNat + 2 * channel) = some (table.toNat + 2 * channel) :=
    narrow?_of_lt (show table.toNat + 2 * channel < 4294967296 by omega)
  unfold checkedLoad? Voice.load
  simp only [hoffset, hplace, Option.bind_eq_bind, Option.bind_some]
  cases memory.readWord (table.toNat + 2 * channel) <;> rfl

end Voice

end

theorem checkedInTurn?_eq {turn : Turn}
    {checked : ℕ → Voice → Option (Except Fault (List Setting) × Voice)} {channel : ℕ}
    {voices : List Voice}
    (h : ∀ i < voices.length, ∀ v ∈ voices, checked (channel + i) v = some (turn (channel + i) v)) :
    checkedInTurn? checked channel voices = some (inTurn turn channel voices) := by
  induction voices generalizing channel with
  | nil => rfl
  | cons v rest ih =>
      have hfirst : checked channel v = some (turn channel v) :=
        h 0 (Nat.succ_pos _) v (List.mem_cons_self)
      have hrest := ih fun i hi w hw => by
        have hlater := h (i + 1) (Nat.succ_lt_succ hi) w (List.mem_cons_of_mem v hw)
        rwa [← Nat.add_assoc, Nat.add_right_comm] at hlater
      rw [checkedInTurn?, inTurn, hfirst, Option.bind_eq_bind, Option.bind_some]
      rcases turn channel v with ⟨fault | settings, v'⟩
      · rfl
      · simp only [hrest]
        rcases inTurn turn (channel + 1) rest with ⟨fault | more, rest'⟩ <;> rfl

namespace Player

/-- Whatever is asked of a player, it keeps its memory and its voices, and these are bounded. -/
theorem bounded_voices (memory : Memory) (channels : ℕ) (table : UInt16)
    (history : List Request) :
    let p := source.after history (powerOn memory channels table)
    p.memory = memory ∧ p.voices.length = channels ∧ ∀ v ∈ p.voices, v.Bounded memory.size := by
  refine Source.after_invariant (fun p : Player => p.memory = memory ∧
    p.voices.length = channels ∧ ∀ v ∈ p.voices, v.Bounded memory.size)
    ?enter ?step history ?start
  case enter =>
    rintro routine p ⟨hmemory, hlength, hbounded⟩
    cases routine with
    | init => exact ⟨hmemory, hlength, hbounded⟩
    | frame =>
        refine ⟨hmemory, (List.length_map _).trans hlength, fun v hv => ?_⟩
        obtain ⟨w, hw, rfl⟩ := List.mem_map.mp hv
        exact (hbounded w hw).beginFrame
  case step =>
    rintro p ⟨rfl, hlength, hbounded⟩
    refine ⟨rfl, (length_inTurn _ 0 p.voices).trans hlength, ?_⟩
    show ∀ v ∈ (inTurn (if p.loading then Voice.load p.memory p.table
      else Voice.advance p.memory) 0 p.voices).2, v.Bounded p.memory.size
    cases p.loading with
    | true => exact forall_inTurn (fun _ _ hv => hv.load) hbounded
    | false => exact forall_inTurn (fun _ _ hv => hv.advance) hbounded
  case start =>
    refine ⟨rfl, List.length_replicate, fun v hv => ?_⟩
    rw [List.eq_of_mem_replicate hv]
    exact Voice.bounded_idle memory.size

theorem checkedStep?_eq {p : Player} (hroom : p.voices.length ≤ 64)
    (hsize : p.memory.size < Nat.pow 2 32) (h : ∀ v ∈ p.voices, v.Bounded p.memory.size) :
    p.checkedStep? = some p.step := by
  have hturns : checkedInTurn? (if p.loading then Voice.checkedLoad? p.memory p.table
      else Voice.checkedAdvance? p.memory) 0 p.voices =
        some (inTurn (if p.loading then Voice.load p.memory p.table
          else Voice.advance p.memory) 0 p.voices) := by
    refine checkedInTurn?_eq fun i hi v hv => ?_
    have hchannel : 0 + i < 64 := by omega
    cases p.loading with
    | true => exact Voice.checkedLoad?_eq hchannel p.table v
    | false => exact Voice.checkedAdvance?_eq hchannel hsize (h v hv)
  unfold checkedStep? step
  simp only [hturns]
  rfl

/-- A player of up to 64 voices can do with words of fixed size, whatever has been asked of it
and whether that has led to faults or not.  Its voices stay within their bounds, and no number
that a step computes from them is too large. -/
theorem bounded_after (memory : Memory) (channels : ℕ) (table : UInt16)
    (history : List Request) (hroom : channels ≤ 64) :
    let p := source.after history (powerOn memory channels table)
    (∀ v ∈ p.voices, v.Bounded memory.size) ∧
      (memory.size < Nat.pow 2 32 → p.checkedStep? = some p.step) := by
  obtain ⟨hmemory, hlength, hbounded⟩ := bounded_voices memory channels table history
  refine ⟨hbounded, fun hsize => ?_⟩
  refine checkedStep?_eq (hlength.trans_le hroom) ?_ ?_
  · rwa [hmemory]
  · rwa [hmemory]

/-- Two voices are in a ramp and in a wait when the third one comes to an instruction that the
memory breaks off.  It faults twice, first behind two operands and then behind the memory. -/
theorem bounded_after_faulted :
    let memory : Memory := ⟨⟨#[6, 0, 10, 0, 12, 0, 4, 0, 64, 5, 6, 3, 4, 1, 2]⟩⟩
    let p := source.after [.enter .init, .run 5, .enter .frame, .step, .run 5]
      (powerOn memory 3 0)
    p.voices = [⟨10, .ramping ⟨.volume, 0, 64, 5, 1⟩, false⟩, ⟨12, .waiting 2, false⟩,
        ⟨15, .ready, true⟩] ∧
      (∀ v ∈ p.voices, v.Bounded 15) ∧ p.checkedStep? = some p.step := by
  intro memory p
  obtain ⟨hbounded, hchecked⟩ := bounded_after memory 3 0
    [.enter .init, .run 5, .enter .frame, .step, .run 5] (by decide)
  exact ⟨by decide, hbounded, hchecked (by decide)⟩

end Player

end Chiptune.Script
