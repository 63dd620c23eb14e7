import Chiptune.Mos6502.Execute
import Chiptune.Proofs.Replay.Steps
import Chiptune.Proofs.Script.Faults

/-!
# Ticks and halting

Every source counts the steps of a routine in its own way.  A machine, with whatever
processor, counts a step when it is over, unless it has faulted, and then it halts.  A player
counts a step when it begins, and a fault does not halt it.  To a caller they are the same
(`keepsTime_of_all`): the writes of a step have a tick that says how many steps have been asked
for since the routine was entered, whether they faulted or not and whether they were asked for
one by one or in runs, and a source that has halted does nothing until a routine is entered.

`Source.stepResults` is what all these steps return.  A clock of a source (`Source.Clock`)
relates states to counts of steps.  As steps are the only requests that go on in a routine, a
clock that every step advances is right after any requests (`Source.Clock.after`).
-/

namespace Chiptune

/-- The last tick, which all later steps have, too. -/
def lastTick : ℕ := UInt32.size - 1

theorem toNat_nextTick (tick : UInt32) :
    (nextTick tick).toNat = min (tick.toNat + 1) lastTick := by
  have hlt := tick.toNat_lt
  unfold nextTick lastTick
  by_cases hlast : tick = 0xFFFFFFFF
  · rw [if_pos hlast, hlast]
    rfl
  · have hne : tick.toNat ≠ 0xFFFFFFFF := fun heq => hlast (UInt32.toNat_inj.mp heq)
    have hone : (1 : UInt32).toNat = 1 := rfl
    rw [if_neg hlast, UInt32.toNat_add, hone]
    simp only [UInt32.size]
    omega

namespace Source

variable {σ γ : Type}

/-! ## Steps of a history -/

section

variable (source : Source σ)

/-- What the steps of a run return. -/
def runResults : (budget : ℕ) → σ → List (Except Fault (List Write))
  | 0, _ => []
  | budget + 1, s =>
    if source.halted s then []
    else
      match source.step s with
      | (.ok writes, next) => .ok writes :: runResults budget next
      | (.error fault, _) => [.error fault]

/-- What the steps return that are taken for a request. -/
def requestResults : Request → σ → List (Except Fault (List Write))
  | .enter _, _ => []
  | .step, s => [(source.step s).1]
  | .run budget, s => source.runResults budget s

/-- What all steps return that are taken for a history of requests, those of runs included. -/
def stepResults : List Request → σ → List (Except Fault (List Write))
  | [], _ => []
  | request :: rest, s =>
    source.requestResults request s ++ stepResults rest (source.grant request s).2

end

variable {source : Source σ}

theorem runResults_of_halted {s : σ} (h : source.halted s = true) (budget : ℕ) :
    source.runResults budget s = [] := by
  cases budget with
  | zero => rfl
  | succ budget => rw [runResults, if_pos h]

theorem runResults_succ_of_ok {s next : σ} {writes : List Write} (hs : source.halted s = false)
    (h : source.step s = (.ok writes, next)) (budget : ℕ) :
    source.runResults (budget + 1) s = .ok writes :: source.runResults budget next := by
  rw [runResults, if_neg (by simp [hs]), h]

theorem runResults_succ_of_error {s next : σ} {fault : Fault} (hs : source.halted s = false)
    (h : source.step s = (.error fault, next)) (budget : ℕ) :
    source.runResults (budget + 1) s = [.error fault] := by
  rw [runResults, if_neg (by simp [hs]), h]

/-- A run that does not fault reports what its steps report. -/
theorem runResults_of_run {budget : ℕ} {s last : σ} {run : Run}
    (h : source.run budget s = (.ok run, last)) :
    ∃ reports : List (List Write), source.runResults budget s = reports.map .ok ∧
      run.writes = reports.flatten := by
  refine run_induct source
    (motive := fun budget s result => ∀ run last, result = (.ok run, last) →
      ∃ reports : List (List Write), source.runResults budget s = reports.map .ok ∧
        run.writes = reports.flatten)
    ?halted ?timedOut ?fault ?step ?later budget s run last h
  case halted =>
    rintro budget s hs run last ⟨⟩
    exact ⟨[], runResults_of_halted hs budget, rfl⟩
  case timedOut =>
    rintro s _ run last ⟨⟩
    exact ⟨[], rfl, rfl⟩
  case fault => nofun
  case step =>
    rintro budget s writes next rest last hs hstep ih run last' ⟨⟩
    obtain ⟨reports, hresults, hwrites⟩ := ih rest last rfl
    refine ⟨writes :: reports, ?_, ?_⟩
    · rw [runResults_succ_of_ok hs hstep, hresults, List.map_cons]
    · rw [List.flatten_cons, hwrites]
  case later => nofun

/-! ## Ticks -/

/-- The writes of steps have the number of their step for a tick, counted from `count` on. -/
def Timed (count : ℕ) (results : List (Except Fault (List Write))) : Prop :=
  ∀ i writes, results[i]? = some (.ok writes) →
    ∀ w ∈ writes, w.tick.toNat = min (count + i) lastTick

theorem timed_nil (count : ℕ) : Timed count [] := fun _ _ h => absurd h (by simp)

theorem timed_cons {count : ℕ} {result : Except Fault (List Write)}
    {rest : List (Except Fault (List Write))} :
    Timed count (result :: rest) ↔
      (∀ writes, result = .ok writes → ∀ w ∈ writes, w.tick.toNat = min count lastTick) ∧
        Timed (count + 1) rest := by
  constructor
  · intro h
    refine ⟨fun writes hwrites => h 0 writes (congrArg some hwrites), fun i writes hi => ?_⟩
    rw [Nat.add_assoc, Nat.add_comm 1]
    exact h (i + 1) writes hi
  · rintro ⟨hfirst, hrest⟩ i writes hi
    cases i with
    | zero => exact hfirst writes (Option.some.inj hi)
    | succ i =>
        rw [← Nat.add_assoc, Nat.add_right_comm]
        exact hrest i writes hi

theorem timed_append {count : ℕ} {results more : List (Except Fault (List Write))} :
    Timed count (results ++ more) ↔
      Timed count results ∧ Timed (count + results.length) more := by
  induction results generalizing count with
  | nil => exact (and_iff_right (timed_nil count)).symm
  | cons result rest ih =>
      rw [List.cons_append, timed_cons, ih, timed_cons, and_assoc, List.length_cons,
        Nat.add_right_comm, Nat.add_assoc]

/-- Writes whose ticks number their steps are sorted by tick. -/
theorem Timed.pairwise_flatten {count : ℕ} {reports : List (List Write)}
    (h : Timed count (reports.map .ok)) :
    reports.flatten.Pairwise fun w w' => w.tick ≤ w'.tick := by
  have htick : ∀ i (hi : i < reports.length), ∀ w ∈ reports[i],
      w.tick.toNat = min (count + i) lastTick :=
    fun i hi => h i reports[i] (by simp [hi])
  rw [List.pairwise_flatten]
  constructor
  · intro report hreport
    obtain ⟨i, hi, rfl⟩ := List.mem_iff_getElem.mp hreport
    refine List.pairwise_of_forall_mem_list fun w hw w' hw' => ?_
    have hsame : w.tick.toNat = w'.tick.toNat := by rw [htick i hi w hw, htick i hi w' hw']
    exact UInt32.le_iff_toNat_le.mpr (Nat.le_of_eq hsame)
  · rw [List.pairwise_iff_getElem]
    intro i j hi hj hij w hw w' hw'
    rw [UInt32.le_iff_toNat_le, htick i hi w hw, htick j hj w' hw']
    omega

/-- A source has come to a state in some count of steps since a routine was entered, and what it
writes next has that count for a tick. -/
structure Clock (source : Source σ) (At : ℕ → σ → Prop) : Prop where
  enter : ∀ routine s, At 0 (source.enter routine s)
  step : ∀ {count s result next}, At count s → source.step s = (result, next) →
    At (count + 1) next
  tick : ∀ {count s writes next}, At count s → source.step s = (.ok writes, next) →
    ∀ w ∈ writes, w.tick.toNat = min count lastTick

namespace Clock

variable {At : ℕ → σ → Prop}

/-- A step comes before the steps that are taken from where it leads to. -/
theorem cons (hclock : source.Clock At) {count : ℕ} {s next last : σ} {writes : List Write}
    {results : List (Except Fault (List Write))} (hs : At count s)
    (hstep : source.step s = (.ok writes, next))
    (hrest : At (count + 1) next → Timed (count + 1) results ∧
      At (count + 1 + results.length) last) :
    Timed count (.ok writes :: results) ∧
      At (count + (Except.ok writes :: results).length) last := by
  obtain ⟨hresults, hlast⟩ := hrest (hclock.step hs hstep)
  rw [List.length_cons, ← Nat.add_assoc, Nat.add_right_comm]
  refine ⟨timed_cons.mpr ⟨?_, hresults⟩, hlast⟩
  rintro writes' ⟨⟩
  exact hclock.tick hs hstep

theorem run (hclock : source.Clock At) (budget : ℕ) {count : ℕ} {s : σ} (hs : At count s) :
    Timed count (source.runResults budget s) ∧
      At (count + (source.runResults budget s).length) (source.run budget s).2 := by
  refine run_induct source
    (motive := fun budget s result => ∀ count, At count s →
      Timed count (source.runResults budget s) ∧
        At (count + (source.runResults budget s).length) result.2)
    ?halted ?timedOut ?fault ?step ?later budget s count hs
  case halted =>
    intro budget s hhalted count hs
    rw [runResults_of_halted hhalted]
    exact ⟨timed_nil count, hs⟩
  case timedOut => exact fun s _ count hs => ⟨timed_nil count, hs⟩
  case fault =>
    intro budget s fault next hrunning hstep count hs
    rw [runResults_succ_of_error hrunning hstep]
    exact ⟨timed_cons.mpr ⟨nofun, timed_nil _⟩, hclock.step hs hstep⟩
  case step =>
    intro budget s writes next run last hrunning hstep ih count hs
    rw [runResults_succ_of_ok hrunning hstep]
    exact hclock.cons hs hstep (ih (count + 1))
  case later =>
    intro budget s writes next fault last hrunning hstep ih count hs
    rw [runResults_succ_of_ok hrunning hstep]
    exact hclock.cons hs hstep (ih (count + 1))

theorem grant (hclock : source.Clock At) {request : Request} (hrequest : request.isEnter = false)
    {count : ℕ} {s : σ} (hs : At count s) :
    Timed count (source.requestResults request s) ∧
      At (count + (source.requestResults request s).length) (source.grant request s).2 := by
  cases request with
  | enter routine => cases hrequest
  | step =>
      have htick : ∀ writes, (source.step s).1 = .ok writes →
          ∀ w ∈ writes, w.tick.toNat = min count lastTick :=
        fun writes hwrites => hclock.tick hs (Prod.ext hwrites rfl)
      exact ⟨timed_cons.mpr ⟨htick, timed_nil _⟩, hclock.step hs rfl⟩
  | run budget =>
      rw [snd_grant_run]
      exact hclock.run budget hs

/-- The clock is right after any requests that enter no routine. -/
theorem after (hclock : source.Clock At) {history : List Request}
    (hhistory : ∀ request ∈ history, request.isEnter = false) {count : ℕ} {s : σ}
    (hs : At count s) :
    Timed count (source.stepResults history s) ∧
      At (count + (source.stepResults history s).length) (source.after history s) := by
  induction history generalizing count s with
  | nil => exact ⟨timed_nil count, hs⟩
  | cons request rest ih =>
      obtain ⟨hrequest, hothers⟩ := List.forall_mem_cons.mp hhistory
      obtain ⟨hfirst, hnext⟩ := hclock.grant hrequest hs
      obtain ⟨hrest, hlast⟩ := ih hothers hnext
      rw [stepResults, after_cons, List.length_append, ← Nat.add_assoc]
      exact ⟨timed_append.mpr ⟨hfirst, hrest⟩, hlast⟩

end Clock

/-! ## Halting -/

/-- A source that has halted has nothing to report, and a step leaves its content as it is. -/
def Rests (source : Source σ) (content : σ → γ) : Prop :=
  ∀ s, source.halted s = true → ∃ next, source.step s = (.ok [], next) ∧
    source.halted next = true ∧ content next = content s

namespace Rests

variable {content : σ → γ}

theorem grant (hrests : source.Rests content) {request : Request}
    (hrequest : request.isEnter = false) {s : σ} (hs : source.halted s = true) :
    source.halted (source.grant request s).2 = true ∧
      content (source.grant request s).2 = content s ∧
      ∀ result ∈ source.requestResults request s, result = .ok [] := by
  cases request with
  | enter routine => cases hrequest
  | step =>
      obtain ⟨next, hstep, hnext, hcontent⟩ := hrests s hs
      rw [Source.grant, requestResults, hstep]
      exact ⟨hnext, hcontent, fun result hresult => List.mem_singleton.mp hresult⟩
  | run budget =>
      rw [snd_grant_run, source.run_of_halted hs, requestResults, runResults_of_halted hs]
      exact ⟨hs, rfl, List.forall_mem_nil _⟩

theorem after (hrests : source.Rests content) {history : List Request}
    (hhistory : ∀ request ∈ history, request.isEnter = false) {s : σ}
    (hs : source.halted s = true) :
    source.halted (source.after history s) = true ∧
      content (source.after history s) = content s ∧
      ∀ result ∈ source.stepResults history s, result = .ok [] := by
  induction history generalizing s with
  | nil => exact ⟨hs, rfl, List.forall_mem_nil _⟩
  | cons request rest ih =>
      obtain ⟨hrequest, hothers⟩ := List.forall_mem_cons.mp hhistory
      obtain ⟨hnext, hcontent, hfirst⟩ := hrests.grant hrequest hs
      obtain ⟨hlast, hcontent', hrest⟩ := ih hothers hnext
      rw [after_cons, stepResults]
      refine ⟨hlast, hcontent'.trans hcontent, fun result hresult => ?_⟩
      rcases List.mem_append.mp hresult with hresult | hresult
      · exact hfirst result hresult
      · exact hrest result hresult

end Rests

/-- The time of a routine, as the callers of a source see it.  The content of a state is all
that matters of it but the tick. -/
structure KeepsTime (source : Source σ) (content : σ → γ) : Prop where
  /-- The steps after a routine is entered are numbered by the ticks of their writes. -/
  timed : ∀ routine s (later : List Request), (∀ request ∈ later, request.isEnter = false) →
    Timed 0 (source.stepResults later (source.enter routine s))
  /-- The writes of a run are those of its steps, and they are sorted by tick. -/
  sorted : ∀ routine s (later : List Request), (∀ request ∈ later, request.isEnter = false) →
    ∀ budget run last,
      source.run budget (source.after later (source.enter routine s)) = (.ok run, last) →
        (∃ reports : List (List Write),
          source.runResults budget (source.after later (source.enter routine s)) =
            reports.map .ok ∧ run.writes = reports.flatten) ∧
        run.writes.Pairwise fun w w' => w.tick ≤ w'.tick
  /-- Once a source has halted, it stays so and does nothing more. -/
  rests : ∀ s, source.halted s = true →
    ∀ later : List Request, (∀ request ∈ later, request.isEnter = false) →
      source.halted (source.after later s) = true ∧
        content (source.after later s) = content s ∧
        ∀ result ∈ source.stepResults later s, result = .ok []

theorem keepsTime {At : ℕ → σ → Prop} {content : σ → γ} (hclock : source.Clock At)
    (hrests : source.Rests content) : source.KeepsTime content where
  timed routine s later hlater := (hclock.after hlater (hclock.enter routine s)).1
  sorted routine s later hlater budget run last hrun := by
    have hstart := (hclock.after hlater (hclock.enter routine s)).2
    obtain ⟨reports, hresults, hwrites⟩ := runResults_of_run hrun
    have htimed := (hclock.run budget hstart).1
    refine ⟨⟨reports, hresults, hwrites⟩, ?_⟩
    rw [hresults] at htimed
    rw [hwrites]
    exact htimed.pairwise_flatten
  rests _ hs _ hlater := hrests.after hlater hs

end Source

/-! ## Machines -/

namespace Machine

variable {ρ : Type} (processor : Processor ρ)

/-- As long as a machine has not halted, its tick is the count of its steps. -/
theorem clock : (source processor).Clock fun count m =>
    m.halted = false → m.tick.toNat = min count lastTick where
  enter routine m _ := congrArg UInt32.toNat (tick_enter routine m)
  step {count m result next} hm hstep hnext := by
    have hmachine : step processor m = (result, next) := hstep
    cases hrunning : m.halted with
    | true =>
        rw [step_of_halted hrunning] at hmachine
        cases hmachine
        rw [hrunning] at hnext
        cases hnext
    | false =>
        rcases result with fault | writes
        · rw [(step_eq_error hmachine).1] at hnext
          cases hnext
        · rw [tick_of_step_ok hrunning hmachine, toNat_nextTick, hm hrunning]
          omega
  tick {count m writes next} hm hstep w hw := by
    have hmachine : step processor m = (.ok writes, next) := hstep
    cases hrunning : m.halted with
    | true =>
        rw [step_of_halted hrunning] at hmachine
        cases hmachine
        cases hw
    | false =>
        obtain ⟨-, rfl, -⟩ := step_eq_ok hrunning hmachine
        obtain ⟨setting, -, rfl⟩ := List.mem_map.mp hw
        exact hm hrunning

/-- A machine that has halted does not change at all. -/
theorem rests : (source processor).Rests id :=
  fun m hm => ⟨m, step_of_halted hm, hm, rfl⟩

end Machine

/-! ## Players -/

namespace Script

theorem inTurn_of_not_due {memory : Memory} {channel : ℕ} {voices : List Voice}
    (h : ∀ v ∈ voices, v.due = false) :
    inTurn (Voice.advance memory) channel voices = (.ok [], voices) := by
  induction voices generalizing channel with
  | nil => rfl
  | cons v rest ih =>
      obtain ⟨hv, hrest⟩ := List.forall_mem_cons.mp h
      rw [inTurn, Voice.advance_of_not_due hv]
      simp only [ih hrest, List.append_nil]

namespace Player

/-- A player but for its tick. -/
def untimed (p : Player) : Player :=
  { p with tick := 0 }

theorem clock : source.Clock fun count p => p.tick.toNat = min count lastTick where
  enter routine p := by
    cases routine <;> rfl
  step {count p result next} hp hstep := by
    have hnext : next.tick = nextTick p.tick := (congrArg (·.2.tick) hstep).symm
    rw [hnext, toNat_nextTick, hp]
    omega
  tick {count p writes next} hp hstep w hw := by
    obtain ⟨-, rfl, -⟩ := turns_of_step hstep
    obtain ⟨setting, -, rfl⟩ := List.mem_map.mp hw
    exact hp

/-- A player that has halted goes on counting steps, and that is all. -/
theorem rests : source.Rests untimed := by
  intro p hp
  have hloaded : p.loading = false := by
    cases hloading : p.loading with
    | false => rfl
    | true => simp [source, halted, hloading] at hp
  have hturns : inTurn (Voice.advance p.memory) 0 p.voices = (.ok [], p.voices) :=
    inTurn_of_not_due ((halted_iff hloaded).mp hp)
  have hstep : p.step = (.ok [], { p with tick := nextTick p.tick }) := by
    obtain ⟨memory, table, voices, loading, tick⟩ := p
    subst hloaded
    simp only [step, Bool.false_eq_true, if_false, hturns]
    rfl
  exact ⟨_, hstep, hp, rfl⟩

end Player

end Script

/-! ## All sources -/

/-- Whatever state a source is in, once a routine is entered the writes of its steps are
numbered, however they are asked for, and once it has halted it stays as it is.  A machine
stays as it is altogether, whatever its processor does, and a player but for its tick. -/
theorem keepsTime_of_all :
    (∀ {ρ : Type} (processor : Processor ρ), (Machine.source processor).KeepsTime id) ∧
      Script.Player.source.KeepsTime Script.Player.untimed :=
  ⟨fun processor => Source.keepsTime (Machine.clock processor) (Machine.rests processor),
    Source.keepsTime Script.Player.clock Script.Player.rests⟩

/-- The second script of the player begins with a byte that is no instruction.  The step that
reads it faults, but it counts.  The code of the machine runs into such a byte, too. -/
theorem keepsTime_of_all_faulted :
    let player := Script.Player.source.after [.enter .init, .run 5]
      (.powerOn ⟨⟨#[4, 0, 8, 0, 3, 64, 6, 1, 9, 3, 5, 6, 1]⟩⟩ 2 0)
    let frame := Script.Player.source.enter .frame player
    let machine := (Machine.source Mos6502.processor).after [.enter .init, .run 9]
      (.powerOn Mos6502.processor
        (.powerOn ⟨⟨#[0, 0xEA, 0x02]⟩⟩ (some ⟨0x01F8, 8⟩) .registers none) ⟨1, 1, 0⟩)
    Script.Player.source.stepResults [.run 9, .step, .run 9] frame =
        [.error (.unknownInstruction 1 9 8), .ok [⟨6, 5, 1⟩], .ok []] ∧
      Source.Timed 0 (Script.Player.source.stepResults [.run 9, .step, .run 9] frame) ∧
      machine.halted = true ∧
      (Machine.source Mos6502.processor).after [.step, .run 3] machine = machine := by
  intro player frame machine
  have hhalted : machine.halted = true := by decide +kernel
  obtain ⟨hmachine, hplayer⟩ := keepsTime_of_all
  refine ⟨by decide, hplayer.timed .frame player _ (by decide), hhalted, ?_⟩
  exact ((hmachine Mos6502.processor).rests machine hhalted [.step, .run 3] (by decide)).2.1

end Chiptune
