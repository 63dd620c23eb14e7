import Chiptune.Proofs.Script.Execution
import Chiptune.Proofs.Script.Turns

/-!
# A program plays its tokens

A voice between two frames stands at a position of its program, with the rest of a
wait or of a ramp before it (`Voice.StandsAt`).  These two make up the tokens that
it has ahead of it (`Voice.tokensAhead`).  In a frame it makes the settings before
the first end of a frame there, and what follows is ahead of it afterwards
(`Voice.PlaysFrame`).  So a player of this one voice writes, frame by frame,
what the tokens of the program say (`Player.plays_tokens`).

A frame takes few advances because a closed program never goes far without taking
one up.
-/

namespace Chiptune.Script

variable {memory : Memory} {program : List Instruction} {instruction : Instruction}
  {base channel i count : ℕ}

namespace Voice

/-- A voice that is about to read an instruction of the program. -/
def readingAt (base : ℕ) (program : List Instruction) (i : ℕ) : Voice :=
  ⟨base + startOf program i, .ready, true⟩

/-- Reading moves on to the next instruction, and then this one is executed. -/
theorem advance_readingAt (hbytes : memory.Holds base (bytesOf program))
    (hget : program[i]? = some instruction) (channel : ℕ) :
    (readingAt base program i).advance memory channel =
      (.ok (execute channel instruction (readingAt base program (i + 1))).1,
        (execute channel instruction (readingAt base program (i + 1))).2) := by
  have hbehind : base + startOf program i + instruction.bytes.length =
      base + startOf program (i + 1) := by
    rw [Nat.add_assoc, ← startOf_succ hget]
  have hadvance := advance_of_ready (v := readingAt base program i) rfl rfl
    (holds_instruction hbytes hget) channel
  rwa [show (readingAt base program i).pc = base + startOf program i from rfl, hbehind]
    at hadvance

/-- The tokens of a voice that reads up to `count` more instructions, the first of
them at position `i`. -/
def tokensAhead (channel base : ℕ) (program : List Instruction) (v : Voice) (i count : ℕ) :
    List Token :=
  match v.activity with
  | .stopped => []
  | activity => activity.tokens channel ++ tokensFrom channel base program count i

/-- A voice between two frames, which has stopped or is going to read on at a
position of the program. -/
structure StandsAt (base : ℕ) (program : List Instruction) (v : Voice) (i : ℕ) : Prop where
  rest : v.due = false
  valid : v.activity.Valid
  inside : v.activity ≠ .stopped → i < program.length
  pc : v.activity ≠ .stopped → v.pc = base + startOf program i

theorem tokensAhead_of_running {v : Voice} (h : v.activity ≠ .stopped) (channel base : ℕ)
    (program : List Instruction) (i count : ℕ) :
    v.tokensAhead channel base program i count =
      v.activity.tokens channel ++ tokensFrom channel base program count i := by
  unfold tokensAhead
  split
  · contradiction
  · rfl

/-- A frame of a voice in front of some tokens, of which more can be seen the more
instructions are read ahead.  Within `limit` advances the voice makes the settings
before the first end of a frame, and the rest is ahead of it when it stands again. -/
structure PlaysFrame (memory : Memory) (channel base : ℕ) (program : List Instruction) (limit : ℕ)
    (v : Voice) (tokens : (count : ℕ) → List Token) (settings : List Setting) (last : Voice)
    (next : ℕ) : Prop where
  frame : ∃ advances ≤ limit, v.Frame memory channel settings advances last
  stands : last.StandsAt base program next
  tokens : ∃ used ≤ limit, ∀ more, inFrame 0 (tokens (used + more)) = settings ∧
    ∀ k, inFrame (k + 1) (tokens (used + more)) =
      inFrame k (last.tokensAhead channel base program next more)

/-- A frame can be a single advance. -/
theorem PlaysFrame.of_advance {limit used next : ℕ} {v last : Voice} {tokens : ℕ → List Token}
    {settings : List Setting} (hdue : v.due = true)
    (hadvance : v.advance memory channel = (.ok settings, last))
    (hstands : last.StandsAt base program next) (hlimit : 0 < limit) (hused : used ≤ limit)
    (htokens : ∀ more, tokens (used + more) = settings.map .set ++
      .frameEnd :: last.tokensAhead channel base program next more) :
    PlaysFrame memory channel base program limit v tokens settings last next := by
  refine ⟨⟨1, hlimit, ?_⟩, hstands, used, hused, fun more => ?_⟩
  · rw [← List.append_nil settings]
    exact .advance hdue hadvance (.done hstands.rest)
  · simp only [htokens, inFrame_zero_append, inFrame_succ_append]
    exact ⟨List.append_nil settings, fun k => rfl⟩

/-- A voice that reads on plays the frame that comes next in its program. -/
theorem playsFrame_readingAt (hbytes : memory.Holds base (bytesOf program))
    (hclosed : Closed base program) (h : TakesFrameWithin base program count i) :
    ∃ settings last next, PlaysFrame memory channel base program count
      (readingAt base program i) (fun more => tokensFrom channel base program more i)
      settings last next := by
  induction h with
  | @here count i instruction hget htakes =>
      obtain ⟨settings, activity, hexecute, htokens, hvalid, hstop⟩ :=
        execute_of_takesFrame htakes channel (readingAt base program (i + 1))
      have hadvance := advance_readingAt hbytes hget channel
      rw [hexecute] at hadvance
      have hstands : ((readingAt base program (i + 1)).takeFrame activity).StandsAt base program
          (i + 1) := by
        refine ⟨rfl, hvalid, fun hrunning => ?_, fun _ => rfl⟩
        have hgoes : instruction ≠ .stop := fun heq => hrunning (hstop.mpr heq)
        obtain ⟨next, hlt, hnext⟩ := exists_successor?_of_closed hclosed hget hgoes
        rw [successor?_of_takesFrame htakes hgoes] at hnext
        cases hnext
        exact hlt
      have hlimit : 1 ≤ count + 1 := by omega
      refine ⟨settings, _, i + 1, .of_advance rfl hadvance hstands hlimit hlimit fun more => ?_⟩
      -- Behind the end of the frame there is the rest of the instruction, and then the next one,
      -- unless this one has stopped the voice.
      show tokensFrom channel base program (1 + more) i = _
      rw [Nat.add_comm, tokensFrom_succ hget, htokens, List.append_assoc]
      by_cases hstopped : activity = .stopped
      · subst hstopped
        obtain rfl := hstop.mp rfl
        rfl
      · rw [successor?_of_takesFrame htakes fun heq => hstopped (hstop.mpr heq),
          tokensAhead_of_running hstopped]
        rfl
  | @later count i next instruction hget htakes hnext _ ih =>
      obtain ⟨settings, hexecute, htokens⟩ :=
        execute_of_not_takesFrame htakes channel (readingAt base program (i + 1))
      have hadvance := advance_readingAt hbytes hget channel
      have hpc : instruction.next (readingAt base program (i + 1)).pc =
          base + startOf program next := by
        rw [startOf_successor? hget hnext, Nat.add_assoc, ← startOf_succ hget]
        rfl
      rw [hexecute, hpc] at hadvance
      obtain ⟨rest, last, position, ⟨advances, hadvances, hframe⟩, hstands, used, hused, hrest⟩ :=
        ih
      refine ⟨settings ++ rest, last, position,
        ⟨advances + 1, by omega, .advance rfl hadvance hframe⟩, hstands, used + 1, by omega,
        fun more => ?_⟩
      have hahead : tokensFrom channel base program (used + 1 + more) i =
          settings.map .set ++ tokensFrom channel base program (used + more) next := by
        rw [Nat.add_right_comm, tokensFrom_succ hget, hnext, htokens]
      obtain ⟨hfirst, hlater⟩ := hrest more
      simp only [hahead, inFrame_zero_append, inFrame_succ_append]
      exact ⟨congrArg (settings ++ ·) hfirst, hlater⟩

/-- A voice in a wait or a ramp plays one frame of it, and does not read on. -/
theorem playsFrame_of_busy {activity : Activity} {pc : ℕ} (hvalid : activity.Valid)
    (hrunning : activity ≠ .stopped) (hbusy : activity ≠ .ready) (hi : i < program.length)
    (hpc : pc = base + startOf program i) :
    ∃ settings last next, PlaysFrame memory channel base program (2 * program.length)
      ⟨pc, activity, true⟩ (Voice.tokensAhead channel base program ⟨pc, activity, false⟩ i)
      settings last next := by
  obtain ⟨settings, rest, hadvance, htokens, hrest, hgoes⟩ :=
    advance_of_busy hvalid hrunning hbusy memory channel pc
  have hstands : StandsAt base program ⟨pc, rest, false⟩ i :=
    ⟨rfl, hrest, fun _ => hi, fun _ => hpc⟩
  have hahead : ∀ more, tokensAhead channel base program ⟨pc, activity, false⟩ i (0 + more) =
      settings.map .set ++ .frameEnd ::
        tokensAhead channel base program ⟨pc, rest, false⟩ i more := by
    intro more
    rw [tokensAhead_of_running hrunning, tokensAhead_of_running hgoes, htokens, Nat.zero_add,
      List.append_assoc]
    rfl
  exact ⟨settings, _, i, .of_advance rfl hadvance hstands (by omega) (Nat.zero_le _) hahead⟩

/-- A frame of a voice of a closed program, wherever it stands and whatever it is
about to do. -/
theorem playsFrame_of_standsAt (hbytes : memory.Holds base (bytesOf program))
    (hclosed : Closed base program) {v : Voice} (h : v.StandsAt base program i) :
    ∃ settings last next, PlaysFrame memory channel base program (2 * program.length)
      v.beginFrame (v.tokensAhead channel base program i) settings last next := by
  obtain ⟨pc, activity, due⟩ := v
  obtain ⟨rfl, hvalid, hinside, hpc⟩ := h
  cases activity with
  | stopped =>
      refine ⟨[], ⟨pc, .stopped, false⟩, i, ⟨0, by omega, .done rfl⟩, ⟨rfl, hvalid, hinside, hpc⟩,
        ⟨0, by omega, fun more => ⟨rfl, fun k => ?_⟩⟩⟩
      exact (inFrame_nil (k + 1)).trans (inFrame_nil k).symm
  | ready =>
      obtain rfl : pc = base + startOf program i := hpc nofun
      exact playsFrame_readingAt hbytes hclosed
        (takesFrameWithin_of_closed hclosed (hinside nofun))
  | waiting remaining =>
      exact playsFrame_of_busy hvalid nofun nofun (hinside nofun) (hpc nofun)
  | ramping ramp =>
      exact playsFrame_of_busy hvalid nofun nofun (hinside nofun) (hpc nofun)

end Voice

namespace Player

variable {p : Player} {v : Voice} {budget : ℕ}

/-- A player, between two frames, of one voice with its program in memory. -/
structure Performs (channel base : ℕ) (program : List Instruction) (p : Player) (v : Voice)
    (i : ℕ) : Prop where
  bytes : p.memory.Holds base (bytesOf program)
  solo : p.Solo channel v
  stands : v.StandsAt base program i

/-- A frame of the player: it halts, and what it wrote is what its voice had ahead of it. -/
theorem Performs.run_frame (h : p.Performs channel base program v i) (hclosed : Closed base program)
    (hbudget : 2 * program.length ≤ budget) :
    ∃ run p' last next, source.run budget (source.enter .frame p) = (.ok run, p') ∧
      run.outcome = .halted ∧ p'.Performs channel base program last next ∧
      ∃ used ≤ 2 * program.length, ∀ more,
        inFrame 0 (v.tokensAhead channel base program i (used + more)) =
            run.writes.map Write.setting ∧
          ∀ k, inFrame (k + 1) (v.tokensAhead channel base program i (used + more)) =
            inFrame k (last.tokensAhead channel base program next more) := by
  obtain ⟨settings, last, next, ⟨advances, hadvances, hframe⟩, hlast, used, hused, htokens⟩ :=
    Voice.playsFrame_of_standsAt h.bytes hclosed h.stands
  obtain ⟨writes, p', hhalts, hwrites, hsolo, hmemory⟩ :=
    Solo.halts_of_frame (p := p.enter .frame) hframe h.solo.enter
  have hbytes : p'.memory.Holds base (bytesOf program) := hmemory ▸ h.bytes
  refine ⟨_, p', last, next, Source.run_eq_of_halts hhalts (Nat.le_trans hadvances hbudget), rfl,
    ⟨hbytes, hsolo, hlast⟩, used, hused, fun more => ?_⟩
  obtain ⟨hfirst, hlater⟩ := htokens more
  exact ⟨hfirst.trans hwrites.symm, hlater⟩

/-- After any number of frames the tokens of the program are used up to the ends of
these frames, and the rest of them is ahead of the voice. -/
theorem Performs.afterFrames (h : p.Performs channel base program v i)
    (hclosed : Closed base program) (hbudget : 2 * program.length ≤ budget) (k : ℕ) :
    ∃ last next, (source.afterFrames budget p k).Performs channel base program last next ∧
      ∃ used ≤ k * (2 * program.length), ∀ more j,
        inFrame (k + j) (v.tokensAhead channel base program i (used + more)) =
          inFrame j (last.tokensAhead channel base program next more) := by
  induction k with
  | zero =>
      refine ⟨v, i, h, 0, by omega, fun more j => ?_⟩
      rw [Nat.zero_add, Nat.zero_add]
  | succ k ih =>
      obtain ⟨w, position, hperforms, used, hused, htokens⟩ := ih
      obtain ⟨run, p', last, next, hrun, _, hlast, more, hmore, hrest⟩ :=
        hperforms.run_frame hclosed hbudget
      have hafter : source.afterFrames budget p (k + 1) = p' := by
        rw [Source.afterFrames, hrun]
      rw [hafter]
      refine ⟨last, next, hlast, used + more, ?_, fun further j => ?_⟩
      · rw [Nat.succ_mul]
        omega
      · calc inFrame (k + 1 + j) (v.tokensAhead channel base program i (used + more + further))
            = inFrame (k + (j + 1))
                (v.tokensAhead channel base program i (used + (more + further))) := by
              rw [Nat.add_assoc used, Nat.add_right_comm k, Nat.add_assoc k]
          _ = inFrame (j + 1) (w.tokensAhead channel base program position (more + further)) :=
              htokens (more + further) (j + 1)
          _ = inFrame j (last.tokensAhead channel base program next further) :=
              (hrest further).2 j

/-- A program of one voice plays its tokens.  Its bytes lie in memory where the
table says, no other channel is used, and the program is closed: then the player is
set up in one step that writes nothing, and from then on it halts in every frame,
if the budget is twice the number of instructions, having written exactly what
stands between two ends of frames in the tokens of the program. -/
theorem plays_tokens {memory : Memory} {channels : ℕ} {table start : UInt16} {initBudget : ℕ}
    (hchannel : channel < channels)
    (htable : ∀ i < channels, memory.readWord (table.toNat + 2 * i) =
      .ok (if i = channel then start else unusedEntry))
    (hstart : start ≠ unusedEntry)
    (hbytes : memory.Holds start.toNat (bytesOf program))
    (hclosed : Closed start.toNat program)
    (hinit : 0 < initBudget) (hbudget : 2 * program.length ≤ budget) :
    let init := source.run initBudget (source.enter .init (powerOn memory channels table))
    init.1 = .ok ⟨[], 1, .halted⟩ ∧
      ∀ k, ∃ run,
        (source.run budget (source.enter .frame (source.afterFrames budget init.2 k))).1 = .ok run ∧
        run.outcome = .halted ∧
        ∀ count, (k + 1) * (2 * program.length) ≤ count →
          run.writes.map Write.setting =
            inFrame k (tokensFrom channel start.toNat program count 0) := by
  intro init
  have hrunInit : init = _ := Source.run_eq_of_halts (halts_load htable) hinit
  rw [hrunInit]
  refine ⟨rfl, fun k => ?_⟩
  have hsolo := @solo_load memory channels table
    (fun i => if i = channel then start else unusedEntry) channel hchannel
    (fun i _ hne => if_neg hne) 1
  rw [if_pos rfl, Voice.ofEntry, if_neg hstart] at hsolo
  have hstands : (Voice.atStart start).StandsAt start.toNat program 0 := by
    obtain ⟨body, last, hprogram, _⟩ := hclosed
    refine ⟨rfl, trivial, fun _ => ?_, fun _ => rfl⟩
    rw [hprogram]
    simp
  have hstarted := Performs.mk hbytes hsolo hstands
  obtain ⟨v, i, hperforms, used, hused, htokens⟩ := hstarted.afterFrames hclosed hbudget k
  obtain ⟨run, p', last, next, hrun, hhalted, _, more, hmore, hwrites⟩ :=
    hperforms.run_frame hclosed hbudget
  refine ⟨run, by rw [hrun], hhalted, fun count hcount => ?_⟩
  obtain ⟨rest, rfl⟩ : ∃ rest, count = used + (more + rest) :=
    ⟨count - (used + more), by rw [Nat.succ_mul] at hcount; omega⟩
  calc run.writes.map Write.setting
      = inFrame 0 (v.tokensAhead channel start.toNat program i (more + rest)) :=
        (hwrites rest).1.symm
    _ = inFrame (k + 0) ((Voice.atStart start).tokensAhead channel start.toNat program 0
          (used + (more + rest))) :=
        (htokens (more + rest) 0).symm

/-- A volume that fades in three frames and stays for two, over and over: the sixth
frame is the first of the second round. -/
theorem plays_tokens_fadingLoop :
    let program : List Instruction := [.volumeRamp 64 0 3, .wait 2, .jump 4]
    let memory : Memory := ⟨⟨#[4, 0, 0xFF, 0xFF] ++ (bytesOf program).toArray⟩⟩
    let init := source.run 1 (source.enter .init (powerOn memory 2 0))
    memory.Holds 4 (bytesOf program) ∧ Closed 4 program ∧
      ∃ run,
        (source.run 6 (source.enter .frame (source.afterFrames 6 init.2 5))).1 = .ok run ∧
        run.outcome = .halted ∧ run.writes.map Write.setting = [⟨2, 64⟩] := by
  intro program memory init
  have htable : ∀ i < 2, memory.readWord ((0 : UInt16).toNat + 2 * i) =
      .ok (if i = 0 then 4 else unusedEntry) := by decide
  have hbytes : memory.Holds 4 (bytesOf program) := by decide
  have hclosed : Closed 4 program := by
    refine ⟨[.volumeRamp 64 0 3, .wait 2], .jump 4, rfl, by decide, .inr ?_⟩
    exact ⟨4, 0, rfl, by decide, by decide, .volumeRamp 64 0 3, by decide, rfl⟩
  obtain ⟨_, hframes⟩ :=
    plays_tokens (by decide) htable (by decide) hbytes hclosed Nat.one_pos (Nat.le_refl 6)
  obtain ⟨run, hrun, hhalted, hwrites⟩ := hframes 5
  exact ⟨hbytes, hclosed, run, hrun, hhalted, (hwrites 36 (by decide)).trans (by decide)⟩

end Player

end Chiptune.Script
