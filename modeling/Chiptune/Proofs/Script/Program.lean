import Chiptune.Chip.Family
import Chiptune.Proofs.Script.Encoding
import Chiptune.Replay.Source
import Chiptune.Script.Player
import Mathlib.Data.List.Basic

/-!
# What a program of a voice means

A program is a list of instructions whose bytes follow each other in memory.  It
stands for a sequence of tokens, which are settings of chip registers and ends of
frames (`tokensFrom`).  The tokens say nothing about voices that are due, ramps
that are under way or waits that have not run out; what a voice has to do in its
`k`-th frame is what stands between the `k`-th end of a frame and the next
(`inFrame`).

A program that is `Closed` neither runs off its end nor goes round without taking
up a frame: from every position it takes up a frame within twice as many
instructions as it has (`takesFrameWithin_of_closed`).
-/

namespace Chiptune.Script

/-! ## Tokens -/

/-- What a voice does, as far as it can be heard. -/
inductive Token where
  | set (s : Setting)
  | frameEnd
  deriving DecidableEq

/-- A target is brought to a value. -/
def RampTarget.tokens (target : RampTarget) (channel value : ℕ) : List Token :=
  match target with
  | .volume => [.set ⟨Paula.register channel .volume, value.toUInt8⟩]
  | .period =>
    [.set ⟨Paula.register channel .periodHigh, (value / 256).toUInt8⟩,
      .set ⟨Paula.register channel .periodLow, (value % 256).toUInt8⟩]

/-- The value of a ramp in its frame `i`, counted from zero: in equal parts from
the first value to the last, rounded towards the first. -/
def interpolated (first last frames i : ℕ) : ℕ :=
  if frames ≤ 1 then last
  else if first ≤ last then first + (last - first) * i / (frames - 1)
  else first - (first - last) * i / (frames - 1)

/-- A frame of a ramp. -/
def RampTarget.frameTokens (target : RampTarget) (channel first last frames i : ℕ) : List Token :=
  target.tokens channel (interpolated first last frames i) ++ [.frameEnd]

/-- A ramp over no frames only sets its last value. -/
def RampTarget.rampTokens (target : RampTarget) (channel first last frames : ℕ) : List Token :=
  if frames = 0 then target.tokens channel last
  else (List.range frames).flatMap (target.frameTokens channel first last frames)

namespace Instruction

/-- What an instruction stands for. -/
def tokens (channel : ℕ) : Instruction → List Token
  | .stop => [.frameEnd]
  | .wave slot => [.set ⟨Paula.register channel .slot, slot⟩]
  | .period value => RampTarget.period.tokens channel value.toNat
  | .volume value => RampTarget.volume.tokens channel value.toNat
  | .volumeRamp first last frames =>
    RampTarget.volume.rampTokens channel first.toNat last.toNat frames.toNat
  | .periodRamp first last frames =>
    RampTarget.period.rampTokens channel first.toNat last.toNat frames.toNat
  | .wait frames => List.replicate frames.toNat .frameEnd
  | .jump _ => []

/-- Whether an instruction takes up a frame. -/
def takesFrame : Instruction → Bool
  | .stop => true
  | .volumeRamp _ _ frames => 0 < frames.toNat
  | .periodRamp _ _ frames => 0 < frames.toNat
  | .wait frames => 0 < frames.toNat
  | _ => false

/-- Whether an instruction goes on elsewhere. -/
def isJump : Instruction → Bool
  | .jump _ => true
  | _ => false

end Instruction

/-! ## Programs in memory -/

/-- The bytes of a program. -/
def bytesOf (program : List Instruction) : List UInt8 :=
  program.flatMap Instruction.bytes

/-- Where an instruction begins, counted from the start of the program. -/
def startOf (program : List Instruction) (i : ℕ) : ℕ :=
  (bytesOf (program.take i)).length

variable {program : List Instruction} {instruction : Instruction} {i j base : ℕ}

theorem startOf_succ (h : program[i]? = some instruction) :
    startOf program (i + 1) = startOf program i + instruction.bytes.length := by
  unfold startOf bytesOf
  rw [List.take_add_one, h, List.flatMap_append, List.length_append]
  simp

theorem startOf_lt (hij : i < j) (hj : j ≤ program.length) :
    startOf program i < startOf program j := by
  induction hij with
  | refl =>
      have hget : program[i]? = some program[i] := List.getElem?_eq_getElem (by omega)
      have hpos := program[i].length_bytes_pos
      rw [startOf_succ hget]
      omega
  | @step j hij ih =>
      have hget : program[j]? = some program[j] := List.getElem?_eq_getElem (by omega)
      have := ih (by omega)
      rw [startOf_succ hget]
      omega

theorem holds_instruction {memory : Memory} (hbytes : memory.Holds base (bytesOf program))
    (h : program[i]? = some instruction) :
    memory.Holds (base + startOf program i) instruction.bytes := by
  obtain ⟨hi, hget⟩ := List.getElem?_eq_some_iff.mp h
  have hsplit : bytesOf program =
      bytesOf (program.take i) ++ (instruction.bytes ++ bytesOf (program.drop (i + 1))) := by
    conv_lhs => rw [← List.take_append_drop i program, List.drop_eq_getElem_cons hi, hget]
    unfold bytesOf
    rw [List.flatMap_append, List.flatMap_cons]
  rw [hsplit] at hbytes
  exact hbytes.right.left

/-- The position of the instruction that begins at an address. -/
def positionAt? (base : ℕ) (program : List Instruction) (address : ℕ) : Option ℕ :=
  (List.range program.length).find? fun i => base + startOf program i == address

theorem positionAt?_startOf (hi : i < program.length) :
    positionAt? base program (base + startOf program i) = some i := by
  unfold positionAt?
  rw [List.find?_range_eq_some]
  refine ⟨by simp, List.mem_range.mpr hi, fun j hj => ?_⟩
  have := startOf_lt hj (Nat.le_of_lt hi)
  simp only [Bool.not_eq_true', beq_eq_false_iff_ne]
  omega

theorem startOf_of_positionAt? {address : ℕ} (h : positionAt? base program address = some i) :
    i < program.length ∧ base + startOf program i = address := by
  obtain ⟨haddress, hmem, _⟩ := List.find?_range_eq_some.mp h
  exact ⟨List.mem_range.mp hmem, eq_of_beq haddress⟩

/-! ## The tokens of a program -/

/-- Where a program goes on behind an instruction: nowhere once it has stopped. -/
def successor? (base : ℕ) (program : List Instruction) (i : ℕ) : Instruction → Option ℕ
  | .stop => none
  | .jump target => positionAt? base program target.toNat
  | _ => some (i + 1)

/-- The tokens of up to `count` instructions from a position on. -/
def tokensFrom (channel base : ℕ) (program : List Instruction) : (count i : ℕ) → List Token
  | 0, _ => []
  | count + 1, i =>
    match program[i]? with
    | none => []
    | some instruction =>
      instruction.tokens channel ++
        match successor? base program i instruction with
        | none => []
        | some next => tokensFrom channel base program count next

theorem tokensFrom_succ (hget : program[i]? = some instruction) (channel base count : ℕ) :
    tokensFrom channel base program (count + 1) i =
      instruction.tokens channel ++
        match successor? base program i instruction with
        | none => []
        | some next => tokensFrom channel base program count next := by
  simp only [tokensFrom, hget]

/-- The settings between the `k`-th end of a frame and the next. -/
def inFrame : (k : ℕ) → List Token → List Setting
  | _, [] => []
  | 0, .set s :: rest => s :: inFrame 0 rest
  | 0, .frameEnd :: _ => []
  | k + 1, .set _ :: rest => inFrame (k + 1) rest
  | k + 1, .frameEnd :: rest => inFrame k rest

theorem inFrame_nil (k : ℕ) : inFrame k [] = [] := by
  cases k <;> rfl

theorem inFrame_zero_append (settings : List Setting) (rest : List Token) :
    inFrame 0 (settings.map .set ++ rest) = settings ++ inFrame 0 rest := by
  induction settings with
  | nil => rfl
  | cons s settings ih => exact congrArg (s :: ·) ih

theorem inFrame_succ_append (k : ℕ) (settings : List Setting) (rest : List Token) :
    inFrame (k + 1) (settings.map .set ++ rest) = inFrame (k + 1) rest := by
  induction settings with
  | nil => rfl
  | cons s settings ih => exact ih

/-! ## Programs that take up every frame -/

/-- The only jump of the program is its last instruction, if there is one at all.
It goes back to the start of an instruction from which on something takes up a
frame; without it the program stops at its end. -/
def Closed (base : ℕ) (program : List Instruction) : Prop :=
  ∃ body last, program = body ++ [last] ∧ (∀ instruction ∈ body, instruction.isJump = false) ∧
    (last = .stop ∨
      ∃ target loop, last = .jump target ∧ loop < program.length ∧
        target.toNat = base + startOf program loop ∧
        ∃ instruction ∈ program.drop loop, instruction.takesFrame)

/-- From a position on, one of the next `count` instructions takes up a frame. -/
inductive TakesFrameWithin (base : ℕ) (program : List Instruction) : (count i : ℕ) → Prop where
  | here {count i instruction} : program[i]? = some instruction → instruction.takesFrame = true →
      TakesFrameWithin base program (count + 1) i
  | later {count i next instruction} : program[i]? = some instruction →
      instruction.takesFrame = false → successor? base program i instruction = some next →
      TakesFrameWithin base program count next → TakesFrameWithin base program (count + 1) i

namespace TakesFrameWithin

theorem mono {count more : ℕ} (h : TakesFrameWithin base program count i) (hle : count ≤ more) :
    TakesFrameWithin base program more i := by
  induction h generalizing more with
  | here hget htakes =>
      obtain ⟨more, rfl⟩ : ∃ n, more = n + 1 := ⟨more - 1, by omega⟩
      exact .here hget htakes
  | later hget htakes hnext _ ih =>
      obtain ⟨more, rfl⟩ : ∃ n, more = n + 1 := ⟨more - 1, by omega⟩
      exact .later hget htakes hnext (ih (by omega))

end TakesFrameWithin

theorem successor?_of_not_jump (hjump : instruction.isJump = false)
    (hframe : instruction.takesFrame = false) :
    successor? base program i instruction = some (i + 1) := by
  cases instruction with
  | stop => cases hframe
  | jump target => cases hjump
  | _ => rfl

theorem successor?_of_takesFrame (htakes : instruction.takesFrame = true)
    (hrunning : instruction ≠ .stop) : successor? base program i instruction = some (i + 1) := by
  cases instruction with
  | stop => exact absurd rfl hrunning
  | jump target => cases htakes
  | _ => rfl

/-- Only what stops has no successor in a closed program. -/
theorem exists_successor?_of_closed (h : Closed base program)
    (hget : program[i]? = some instruction) (hrunning : instruction ≠ .stop) :
    ∃ next < program.length, successor? base program i instruction = some next := by
  obtain ⟨body, last, hprogram, hbody, hlast⟩ := h
  have hlength : program.length = body.length + 1 := by rw [hprogram]; simp
  have hi : i < program.length := (List.getElem?_eq_some_iff.mp hget).1
  rcases Nat.lt_or_ge i body.length with hlt | hge
  · have hmem : instruction ∈ body := by
      rw [hprogram, List.getElem?_append_left hlt] at hget
      exact List.mem_of_getElem? hget
    refine ⟨i + 1, by omega, ?_⟩
    cases instruction with
    | stop => exact absurd rfl hrunning
    | jump target => cases hbody _ hmem
    | _ => rfl
  · obtain rfl : i = body.length := by omega
    have heq : last = instruction := by
      rw [hprogram] at hget
      simpa using hget
    subst heq
    rcases hlast with rfl | ⟨target, loop, rfl, hloop, htarget, _⟩
    · exact absurd rfl hrunning
    · exact ⟨loop, hloop, by rw [successor?, htarget, positionAt?_startOf hloop]⟩

/-- Without a jump on the way, an instruction is reached from every position before it. -/
theorem TakesFrameWithin.of_straight {count : ℕ} (hij : i ≤ j) (hj : j ≤ program.length)
    (hstraight : ∀ k instruction, i ≤ k → k < j → program[k]? = some instruction →
      instruction.isJump = false)
    (hreached : TakesFrameWithin base program count j) :
    TakesFrameWithin base program (j - i + count) i := by
  induction hdistance : j - i generalizing i with
  | zero =>
      obtain rfl : i = j := by omega
      rwa [Nat.zero_add]
  | succ distance ih =>
      have hget : program[i]? = some program[i] := List.getElem?_eq_getElem (by omega)
      rw [Nat.succ_add]
      -- On the way something else may take up the frame, which is as good.
      cases htakes : program[i].takesFrame with
      | true => exact .here hget htakes
      | false =>
          have hnext : successor? base program i program[i] = some (i + 1) :=
            successor?_of_not_jump (hstraight i _ (Nat.le_refl i) (by omega) hget) htakes
          refine .later hget htakes hnext (ih (by omega) ?_ (by omega))
          exact fun k instruction hk => hstraight k instruction (by omega)

/-- A closed program takes up a frame before long, wherever it stands. -/
theorem takesFrameWithin_of_closed (h : Closed base program) (hi : i < program.length) :
    TakesFrameWithin base program (2 * program.length) i := by
  obtain ⟨body, last, hprogram, hbody, hlast⟩ := h
  have hlength : program.length = body.length + 1 := by rw [hprogram]; simp
  have hend : program[body.length]? = some last := by rw [hprogram]; simp
  have hstraight : ∀ k instruction, k < body.length → program[k]? = some instruction →
      instruction.isJump = false := by
    intro k instruction hk hget
    rw [hprogram, List.getElem?_append_left hk] at hget
    exact hbody instruction (List.mem_of_getElem? hget)
  -- To the end of the program it is a straight walk, and behind the end there is the loop.
  have hwalk : ∀ {count : ℕ}, TakesFrameWithin base program count body.length →
      TakesFrameWithin base program (body.length - i + count) i := fun hreached =>
    .of_straight (by omega) (by omega)
      (fun k instruction _ hk hget => hstraight k instruction hk hget) hreached
  rcases hlast with rfl | ⟨target, loop, rfl, hloop, htarget, instruction, hmem, htakes⟩
  · have hstop : TakesFrameWithin base program 1 body.length := .here hend rfl
    exact (hwalk hstop).mono (by omega)
  · obtain ⟨offset, hoffset⟩ := List.mem_iff_getElem?.mp hmem
    rw [List.getElem?_drop] at hoffset
    have hlt : loop + offset < program.length := (List.getElem?_eq_some_iff.mp hoffset).1
    have hne : loop + offset ≠ body.length := by
      intro heq
      rw [heq, hend] at hoffset
      cases hoffset
      cases htakes
    have hround : TakesFrameWithin base program (loop + offset - loop + 1) loop :=
      .of_straight (by omega) (by omega)
        (fun k instruction _ hk hget => hstraight k instruction (by omega) hget)
        (.here hoffset htakes)
    have hjump : TakesFrameWithin base program (loop + offset - loop + 1 + 1) body.length :=
      .later hend rfl (by rw [successor?, htarget, positionAt?_startOf hloop]) hround
    exact (hwalk hjump).mono (by omega)

end Chiptune.Script
