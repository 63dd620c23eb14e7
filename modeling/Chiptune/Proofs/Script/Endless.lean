import Chiptune.Proofs.Script.Execution
import Chiptune.Proofs.Script.Turns
import Mathlib.Data.Finset.Card
import Mathlib.Logic.Function.Iterate

/-!
# A frame that goes on for too long never ends

A frame ends, if it does at all, within as many steps as the memory has bytes, and one
more.  For a voice that is still due after a turn was ready, and is ready again
(`Voice.ready_of_due`), and it has read an instruction inside the memory
(`Voice.pc_lt_of_advances`).  So its next turn depends on nothing but where it reads, and
among more turns than there are addresses two begin at the same place.  From there on the
voice goes round for ever (`Voice.endless_of_succeeds`).

Voices do not wait for each other.  After so many steps each of them is endless or no
longer due, and neither kind can fault any more.  So the player goes on as long as it is
allowed to if there is an endless voice at all (`Player.forever`), which is what it is to
time out.
-/

namespace Chiptune.Script

/-! ## Going round -/

/-- Where an orbit comes to a point again it stays on the points before. -/
theorem exists_lt_iterate_eq {α : Type*} {f : α → α} {x : α} {i j : ℕ} (hij : i < j)
    (h : f^[i] x = f^[j] x) (n : ℕ) : ∃ k < j, f^[n] x = f^[k] x := by
  induction n using Nat.strong_induction_on with
  | h n ih =>
      rcases Nat.lt_or_ge n j with hn | hn
      · exact ⟨n, hn, rfl⟩
      · obtain ⟨rest, rfl⟩ : ∃ rest, n = rest + j := ⟨n - j, by omega⟩
        obtain ⟨k, hk, hback⟩ := ih (rest + i) (by omega)
        refine ⟨k, hk, ?_⟩
        rw [Function.iterate_add_apply, ← h, ← Function.iterate_add_apply, hback]

namespace Voice

variable {memory : Memory} {channel : ℕ} {v : Voice}

/-- A voice after its turn. -/
def turned (memory : Memory) (channel : ℕ) (v : Voice) : Voice :=
  (v.advance memory channel).2

/-- The voice can have its turn. -/
def Advances (memory : Memory) (channel : ℕ) (v : Voice) : Prop :=
  ∃ settings, (v.advance memory channel).1 = .ok settings

/-- The voice is due whenever it has its turn, and always can have it. -/
def Endless (memory : Memory) (channel : ℕ) (v : Voice) : Prop :=
  ∀ n, ((turned memory channel)^[n] v).due = true ∧
    ((turned memory channel)^[n] v).Advances memory channel

/-- Only a voice that is ready stays due, and it stays ready. -/
theorem ready_of_due (h : (turned memory channel v).due = true) :
    v.due = true ∧ v.activity = .ready := by
  have hdue : v.due = true := due_of_advance h
  obtain ⟨pc, activity, due⟩ := v
  subst hdue
  cases activity with
  | ready => exact ⟨rfl, rfl⟩
  | stopped => cases h
  | waiting remaining => cases h
  | ramping ramp => cases h

theorem pc_lt_of_advances (hdue : v.due = true) (hready : v.activity = .ready)
    (h : v.Advances memory channel) : v.pc < memory.size := by
  by_contra hpc
  obtain ⟨settings, hsettings⟩ := h
  obtain ⟨pc, activity, due⟩ := v
  subst hdue hready
  have hread : (Instruction.read memory).run.run pc = (.error (.outside ⟨pc⟩), pc) :=
    Instruction.read_outside (Nat.not_lt.mp hpc)
  have hfault : (Voice.readOn memory channel ⟨pc, .ready, true⟩).1 = .ok settings := hsettings
  unfold readOn at hfault
  rw [hread] at hfault
  cases hfault

theorem eq_of_pc {w : Voice} (hpc : v.pc = w.pc) (hactivity : v.activity = w.activity)
    (hdue : v.due = w.due) : v = w := by
  obtain ⟨pc, activity, due⟩ := v
  subst hpc hactivity hdue
  rfl

theorem due_of_iterate {n m : ℕ} (hle : n ≤ m)
    (h : ((turned memory channel)^[m] v).due = true) :
    ((turned memory channel)^[n] v).due = true := by
  induction hle with
  | refl => exact h
  | step _ ih =>
      rw [Function.iterate_succ_apply'] at h
      exact ih (due_of_advance h)

/-- A voice that is still due after more turns than there are addresses goes round. -/
theorem endless_of_succeeds
    (hok : ∀ n ≤ memory.size, ((turned memory channel)^[n] v).Advances memory channel)
    (hdue : ((turned memory channel)^[memory.size + 1] v).due = true) :
    v.Endless memory channel := by
  have hstays : ∀ n ≤ memory.size + 1, ((turned memory channel)^[n] v).due = true :=
    fun n hn => due_of_iterate hn hdue
  have hready : ∀ n ≤ memory.size, ((turned memory channel)^[n] v).activity = .ready := by
    intro n hn
    have hnext := hstays (n + 1) (Nat.succ_le_succ hn)
    rw [Function.iterate_succ_apply'] at hnext
    exact (ready_of_due hnext).2
  have hmaps : Set.MapsTo (fun n => ((turned memory channel)^[n] v).pc)
      (Finset.range (memory.size + 1)) (Finset.range memory.size) := by
    intro n hn
    have hle : n ≤ memory.size := Nat.le_of_lt_succ (Finset.mem_range.mp hn)
    have hpc := pc_lt_of_advances (hstays n (Nat.le_succ_of_le hle)) (hready n hle) (hok n hle)
    exact Finset.mem_coe.mpr (Finset.mem_range.mpr hpc)
  have hcard : (Finset.range memory.size).card < (Finset.range (memory.size + 1)).card := by
    rw [Finset.card_range, Finset.card_range]
    exact Nat.lt_succ_self _
  -- Two of the turns begin at one address, and there is nothing else that could tell them apart.
  obtain ⟨i, j, hij, hj, hpc⟩ : ∃ i j, i < j ∧ j ≤ memory.size ∧
      ((turned memory channel)^[i] v).pc = ((turned memory channel)^[j] v).pc := by
    obtain ⟨i, hi, j, hj, hne, hpc⟩ := Finset.exists_ne_map_eq_of_card_lt_of_maps_to hcard hmaps
    have hi := Nat.le_of_lt_succ (Finset.mem_range.mp hi)
    have hj := Nat.le_of_lt_succ (Finset.mem_range.mp hj)
    rcases Nat.lt_or_gt_of_ne hne with hlt | hgt
    · exact ⟨i, j, hlt, hj, hpc⟩
    · exact ⟨j, i, hgt, hi, hpc.symm⟩
  have hi : i ≤ memory.size := hij.le.trans hj
  have hsame : (turned memory channel)^[i] v = (turned memory channel)^[j] v :=
    eq_of_pc hpc ((hready i hi).trans (hready j hj).symm)
      ((hstays i (Nat.le_succ_of_le hi)).trans (hstays j (Nat.le_succ_of_le hj)).symm)
  intro n
  obtain ⟨k, hk, hback⟩ := exists_lt_iterate_eq hij hsame n
  have hk : k ≤ memory.size := hk.le.trans hj
  rw [hback]
  exact ⟨hstays k (Nat.le_succ_of_le hk), hok k hk⟩

/-- A voice that is not due has nothing left to do. -/
theorem advances_of_not_due (h : v.due = false) : v.Advances memory channel :=
  ⟨[], by rw [advance_of_not_due h]⟩

/-- A voice that has all these turns can have all others. -/
theorem advances_of_succeeds
    (hok : ∀ n ≤ memory.size, ((turned memory channel)^[n] v).Advances memory channel) (n : ℕ) :
    ((turned memory channel)^[n] v).Advances memory channel := by
  cases hdue : ((turned memory channel)^[memory.size + 1] v).due with
  | true => exact (endless_of_succeeds hok hdue n).2
  | false =>
      rcases Nat.lt_or_ge memory.size n with hlt | hle
      · apply advances_of_not_due
        by_contra hstill
        rw [Bool.not_eq_false] at hstill
        exact Bool.false_ne_true (hdue.symm.trans (due_of_iterate hlt hstill))
      · exact hok n hle

end Voice

/-! ## All voices at once -/

namespace Player

variable {p last : Player} {writes : List Write}

theorem memory_iterate_turned (p : Player) (n : ℕ) : (turned^[n] p).memory = p.memory := by
  induction n with
  | zero => rfl
  | succ n ih =>
      rw [Function.iterate_succ_apply']
      exact ih

theorem loading_iterate_turned (p : Player) (n : ℕ) : (turned^[n] p).loading = p.loading := by
  induction n with
  | zero => rfl
  | succ n ih =>
      rw [Function.iterate_succ_apply']
      exact ih

theorem getElem?_voices_iterate_turned (p : Player) (n channel : ℕ) :
    (turned^[n] p).voices[channel]? =
      p.voices[channel]?.map (Voice.turned p.memory channel)^[n] := by
  induction n with
  | zero => exact Option.map_id'.symm
  | succ n ih =>
      rw [Function.iterate_succ_apply', getElem?_voices_turned, ih, memory_iterate_turned,
        Option.map_map]
      congr 1
      funext v
      exact (Function.iterate_succ_apply' (Voice.turned p.memory channel) n v).symm

/-- The player has not halted, and all its voices can have their turns. -/
def Running (p : Player) : Prop :=
  p.halted = false ∧ Succeeds (Voice.advance p.memory) 0 p.voices

theorem running_of_goesOn {steps : ℕ} (h : source.GoesOn p writes steps last)
    (hloaded : p.loading = false) :
    last = turned^[steps] p ∧ ∀ k < steps, (turned^[k] p).Running := by
  induction h with
  | here => exact ⟨rfl, fun k hk => absurd hk (Nat.not_lt_zero k)⟩
  | @step p next last writes rest steps hrunning hstep _ ih =>
      obtain ⟨hsucceeds, -, rfl⟩ := (step_eq_ok_iff hloaded).mp hstep
      obtain ⟨hlast, hall⟩ := ih hloaded
      refine ⟨hlast, fun k hk => ?_⟩
      cases k with
      | zero => exact ⟨hrunning, hsucceeds⟩
      | succ k => exact hall k (Nat.lt_of_succ_lt_succ hk)

theorem goesOn_of_running (hloaded : p.loading = false) {steps : ℕ}
    (h : ∀ k < steps, (turned^[k] p).Running) :
    ∃ writes, source.GoesOn p writes steps (turned^[steps] p) := by
  induction steps generalizing p with
  | zero => exact ⟨[], .here⟩
  | succ steps ih =>
      obtain ⟨hrunning, hsucceeds⟩ := h 0 (Nat.succ_pos steps)
      obtain ⟨rest, hrest⟩ := ih (p := p.turned) hloaded fun k hk => h (k + 1) (Nat.succ_lt_succ hk)
      exact ⟨_, .step hrunning ((step_eq_ok_iff hloaded).mpr ⟨hsucceeds, rfl, rfl⟩) hrest⟩

/-- A player that is not done after more steps than there are addresses is never done. -/
theorem forever (hloaded : p.loading = false) {steps : ℕ} (hsteps : p.memory.size < steps)
    (hgoes : source.GoesOn p writes steps last) (hlast : last.halted = false) (n : ℕ) :
    (turned^[n] p).Running := by
  obtain ⟨rfl, hrunning⟩ := running_of_goesOn hgoes hloaded
  have hok : ∀ (c : ℕ) (v : Voice), p.voices[c]? = some v → ∀ k ≤ p.memory.size,
      ((Voice.turned p.memory c)^[k] v).Advances p.memory c := by
    intro c v hv k hk
    obtain ⟨-, hsucceeds⟩ := hrunning k (Nat.lt_of_le_of_lt hk hsteps)
    have hturned : (turned^[k] p).voices[c]? = some ((Voice.turned p.memory c)^[k] v) := by
      rw [getElem?_voices_iterate_turned, hv, Option.map_some]
    have hvoice := hsucceeds c _ hturned
    rwa [Nat.zero_add, memory_iterate_turned] at hvoice
  obtain ⟨c, v, hv, hendless⟩ : ∃ (c : ℕ) (v : Voice), p.voices[c]? = some v ∧
      v.Endless p.memory c := by
    have hnot : (turned^[p.memory.size + 1] p).halted = false := by
      rcases Nat.lt_or_eq_of_le (Nat.succ_le_of_lt hsteps) with hlt | heq
      · exact (hrunning _ hlt).1
      · rwa [← heq] at hlast
    obtain ⟨c, w, hw, hdue⟩ := exists_due ((loading_iterate_turned p _).trans hloaded) hnot
    rw [getElem?_voices_iterate_turned] at hw
    obtain ⟨v, hv, rfl⟩ := Option.map_eq_some_iff.mp hw
    exact ⟨c, v, hv, Voice.endless_of_succeeds (hok c v hv) hdue⟩
  constructor
  · -- the endless voice keeps the player from halting
    have hturned : (turned^[n] p).voices[c]? = some ((Voice.turned p.memory c)^[n] v) := by
      rw [getElem?_voices_iterate_turned, hv, Option.map_some]
    by_contra hhalted
    rw [Bool.not_eq_false, halted_iff ((loading_iterate_turned p n).trans hloaded)] at hhalted
    have hdue := hhalted _ (List.mem_of_getElem? hturned)
    exact Bool.false_ne_true (hdue.symm.trans (hendless n).1)
  · intro i w hw
    rw [getElem?_voices_iterate_turned] at hw
    obtain ⟨u, hu, rfl⟩ := Option.map_eq_some_iff.mp hw
    rw [Nat.zero_add, memory_iterate_turned]
    exact Voice.advances_of_succeeds (hok i u hu) n

/-- A frame that has timed out after so many steps times out whatever its budget is. -/
theorem timesOut_of_timesOut {budget : ℕ} (hbudget : p.memory.size + 1 ≤ budget)
    (h : source.TimesOut budget (p.enter .frame)) (other : ℕ) :
    source.TimesOut other (p.enter .frame) := by
  obtain ⟨run, last, hrun, htimedOut⟩ := h
  obtain ⟨hgoes, -, hlast⟩ := Source.goesOn_of_run hrun htimedOut
  have hrunning := forever (p := p.enter .frame) rfl hbudget hgoes hlast
  obtain ⟨writes, hother⟩ := goesOn_of_running (p := p.enter .frame) rfl fun k _ => hrunning k
  exact ⟨_, _, Source.run_eq_of_goesOn hother (hrunning other).1, rfl⟩

/-- Whatever state a player is in, a frame faults or halts within as many steps as the
memory has bytes, and one more, or it times out within every budget.  So a frame that times
out within as large a budget times out within all larger ones. -/
theorem frame_ends_early_or_never (p : Player) :
    (∀ budget, p.memory.size + 1 ≤ budget → source.TimesOut budget (p.enter .frame) →
      ∀ larger, budget ≤ larger → source.TimesOut larger (p.enter .frame)) ∧
    ((∃ fault last, source.run (p.memory.size + 1) (p.enter .frame) = (.error fault, last)) ∨
      (∃ run last, source.run (p.memory.size + 1) (p.enter .frame) = (.ok run, last) ∧
        run.outcome = .halted) ∨
      ∀ budget, source.TimesOut budget (p.enter .frame)) := by
  constructor
  · intro budget hbudget h larger _
    exact timesOut_of_timesOut hbudget h larger
  · rcases source.run_cases (p.memory.size + 1) (p.enter .frame) with hfault | hhalted | htimesOut
    · exact .inl hfault
    · exact .inr (.inl hhalted)
    · exact .inr (.inr fun budget => timesOut_of_timesOut (Nat.le_refl _) htimesOut budget)

/-- A jump to itself goes on for ever, while the other voice has stopped. -/
theorem frame_ends_early_or_never_jump :
    let memory : Memory := ⟨⟨#[7, 0, 0, 0]⟩⟩
    let p : Player := ⟨memory, 0, [⟨0, .ready, false⟩, ⟨3, .ready, false⟩], false, 0⟩
    source.TimesOut 5 (p.enter .frame) ∧ source.TimesOut 1000000 (p.enter .frame) := by
  intro memory p
  have hrun : (source.run 5 (p.enter .frame)).1 = .ok ⟨[], 5, .timedOut⟩ := by decide
  have h : source.TimesOut 5 (p.enter .frame) :=
    ⟨⟨[], 5, .timedOut⟩, (source.run 5 (p.enter .frame)).2, Prod.ext hrun rfl, rfl⟩
  exact ⟨h, (frame_ends_early_or_never p).1 5 (by decide) h 1000000 (by decide)⟩

end Player

end Chiptune.Script
