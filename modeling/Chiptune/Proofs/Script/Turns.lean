import Chiptune.Proofs.Replay.Halting
import Chiptune.Script.Player
import Mathlib.Data.List.Basic

/-!
# Every voice has its own turn

`inTurn` threads the voices of a player through one step.  As long as no voice
faults, there is nothing to thread: each voice has its turn on its own, and the
settings follow each other in the order of the channels (`inTurn_of_succeeds`,
`succeeds_of_inTurn`).

A player is *solo* on a channel when all other voices are at rest.  A step of it
is the turn of its one voice (`Solo.step`), so a frame of it is what that voice
does until it is no longer due (`Solo.halts_of_frame`).  To set up a song is a
single step, too (`Player.halts_load`).
-/

namespace Chiptune.Script

/-- The settings of a turn; a turn that faults has none. -/
def settingsOf (turn : Turn) (channel : ℕ) (v : Voice) : List Setting :=
  match (turn channel v).1 with
  | .ok settings => settings
  | .error _ => []

/-- No voice faults in its turn. -/
def Succeeds (turn : Turn) (channel : ℕ) (voices : List Voice) : Prop :=
  ∀ (i : ℕ) (v : Voice), voices[i]? = some v → ∃ settings, (turn (channel + i) v).1 = .ok settings

theorem succeeds_cons {turn : Turn} {channel : ℕ} {v : Voice} {rest : List Voice} :
    Succeeds turn channel (v :: rest) ↔
      (∃ settings, (turn channel v).1 = .ok settings) ∧ Succeeds turn (channel + 1) rest := by
  constructor
  · intro h
    refine ⟨h 0 v rfl, fun i w hw => ?_⟩
    rw [Nat.add_assoc, Nat.add_comm 1]
    exact h (i + 1) w hw
  · rintro ⟨hfirst, hrest⟩ i w hw
    cases i with
    | zero =>
        cases hw
        exact hfirst
    | succ i =>
        have := hrest i w hw
        rwa [Nat.add_assoc, Nat.add_comm 1] at this

theorem inTurn_of_succeeds {turn : Turn} {channel : ℕ} {voices : List Voice}
    (h : Succeeds turn channel voices) :
    inTurn turn channel voices =
      (.ok ((voices.zipIdx channel).flatMap fun (v, i) => settingsOf turn i v),
        (voices.zipIdx channel).map fun (v, i) => (turn i v).2) := by
  induction voices generalizing channel with
  | nil => rfl
  | cons v rest ih =>
      obtain ⟨⟨settings, hfirst⟩, hrest⟩ := succeeds_cons.mp h
      have hturn : turn channel v = (.ok settings, (turn channel v).2) := by rw [← hfirst]
      rw [inTurn, hturn, ih hrest, List.zipIdx_cons, List.flatMap_cons, List.map_cons]
      simp only [settingsOf, hfirst]

theorem succeeds_of_inTurn {turn : Turn} {channel : ℕ} {voices after : List Voice}
    {settings : List Setting} (h : inTurn turn channel voices = (.ok settings, after)) :
    Succeeds turn channel voices := by
  induction voices generalizing channel settings after with
  | nil => exact fun i v hv => absurd hv (by simp)
  | cons v rest ih =>
      rw [inTurn] at h
      rcases hturn : turn channel v with ⟨fault | mine, v'⟩
      · rw [hturn] at h
        cases h
      · rw [hturn] at h
        rcases hrest : inTurn turn (channel + 1) rest with ⟨fault | more, rest'⟩
        · rw [hrest] at h
          cases h
        · exact succeeds_cons.mpr ⟨⟨mine, by rw [hturn]⟩, ih hrest⟩

theorem length_inTurn (turn : Turn) (channel : ℕ) (voices : List Voice) :
    (inTurn turn channel voices).2.length = voices.length := by
  induction voices generalizing channel with
  | nil => rfl
  | cons v rest ih =>
      rw [inTurn]
      rcases turn channel v with ⟨fault | settings, v'⟩
      · rfl
      · have hrest := ih (channel + 1)
        rcases hinTurn : inTurn turn (channel + 1) rest with ⟨fault | more, rest'⟩
        all_goals
          rw [hinTurn] at hrest
          exact congrArg Nat.succ hrest

/-- When all elements but one contribute nothing, the whole is what that one contributes. -/
theorem flatMap_zipIdx_of_others {α β : Type*} {l : List α} {g : α × ℕ → List β} {k c : ℕ} {a : α}
    (ha : l[c]? = some a)
    (hothers : ∀ (i : ℕ) (b : α), l[i]? = some b → i ≠ c → g (b, k + i) = []) :
    (l.zipIdx k).flatMap g = g (a, k + c) := by
  induction l generalizing k c with
  | nil => simp at ha
  | cons b rest ih =>
      rw [List.zipIdx_cons, List.flatMap_cons]
      have hshift : ∀ i, k + 1 + i = k + (i + 1) := fun i => by omega
      cases c with
      | zero =>
          -- The element is here, and nothing behind it contributes.
          cases ha
          have hrest : (rest.zipIdx (k + 1)).flatMap g = [] := by
            rw [List.flatMap_eq_nil_iff]
            rintro ⟨x, j⟩ hx
            obtain ⟨hle, hget⟩ := List.mk_mem_zipIdx_iff_le_and_getElem?_sub.mp hx
            have hnone := hothers (j - (k + 1) + 1) x (by simpa using hget) (by omega)
            rwa [show k + (j - (k + 1) + 1) = j by omega] at hnone
          rw [hrest, List.append_nil, Nat.add_zero]
      | succ c =>
          have hfirst : g (b, k) = [] := hothers 0 b rfl (by omega)
          rw [hfirst, List.nil_append, ih ha fun i x hx hne => ?_, hshift]
          rw [hshift]
          exact hothers (i + 1) x hx (by omega)

/-! ## A voice at rest -/

namespace Voice

/-- Has stopped and is not due. -/
def AtRest (v : Voice) : Prop :=
  v.activity = .stopped ∧ v.due = false

theorem atRest_idle : idle.AtRest := ⟨rfl, rfl⟩

theorem AtRest.beginFrame {v : Voice} (h : v.AtRest) : v.beginFrame.AtRest := by
  refine ⟨h.1, ?_⟩
  unfold Voice.beginFrame running
  rw [h.1]
  rfl

theorem advance_of_not_due {v : Voice} (h : v.due = false) (memory : Memory) (channel : ℕ) :
    v.advance memory channel = (.ok [], v) := by
  unfold advance
  rw [h]
  rfl

theorem due_of_advance {v : Voice} {memory : Memory} {channel : ℕ}
    (h : (v.advance memory channel).2.due = true) : v.due = true := by
  cases hdue : v.due with
  | true => rfl
  | false =>
      rw [advance_of_not_due hdue, hdue] at h
      cases h

/-- What a voice does while it is due, in a number of advances. -/
inductive Frame (memory : Memory) (channel : ℕ) :
    (v : Voice) → (settings : List Setting) → (advances : ℕ) → (last : Voice) → Prop where
  | done {v} : v.due = false → Frame memory channel v [] 0 v
  | advance {v next last settings rest advances} : v.due = true →
      v.advance memory channel = (.ok settings, next) →
      Frame memory channel next rest advances last →
      Frame memory channel v (settings ++ rest) (advances + 1) last

end Voice

/-! ## Steps of a player -/

namespace Player

/-- What all voices set in their turns. -/
def settings (p : Player) : List Setting :=
  (p.voices.zipIdx 0).flatMap fun (v, i) => settingsOf (Voice.advance p.memory) i v

/-- The player after all voices have had their turns. -/
def turned (p : Player) : Player :=
  { p with
    voices := (p.voices.zipIdx 0).map fun (v, i) => (Voice.advance p.memory i v).2
    tick := nextTick p.tick }

variable {p next : Player} {writes : List Write}

@[simp] theorem voices_enter (p : Player) :
    (p.enter .frame).voices = p.voices.map Voice.beginFrame := rfl

@[simp] theorem length_voices_turned (p : Player) :
    p.turned.voices.length = p.voices.length := by
  unfold turned
  rw [List.length_map, List.length_zipIdx]

@[simp] theorem getElem?_voices_turned (p : Player) (channel : ℕ) :
    p.turned.voices[channel]? =
      p.voices[channel]?.map fun v => (v.advance p.memory channel).2 := by
  simp [turned, Function.comp_def]

/-- A step does not fault exactly if no turn does, and then it is all the turns. -/
theorem step_eq_ok_iff (hloaded : p.loading = false) :
    p.step = (.ok writes, next) ↔
      Succeeds (Voice.advance p.memory) 0 p.voices ∧
        writes = p.settings.map (Setting.write p.tick) ∧ next = p.turned := by
  have hstep : p.step =
      ((inTurn (Voice.advance p.memory) 0 p.voices).1.map (·.map (Setting.write p.tick)),
        { p with
          voices := (inTurn (Voice.advance p.memory) 0 p.voices).2
          tick := nextTick p.tick }) := by
    obtain ⟨memory, table, voices, loading, tick⟩ := p
    subst hloaded
    rfl
  rw [hstep]
  constructor
  · intro h
    have hsucceeds : Succeeds (Voice.advance p.memory) 0 p.voices := by
      cases hturns : (inTurn (Voice.advance p.memory) 0 p.voices).1 with
      | error fault =>
          rw [hturns] at h
          cases h
      | ok settings => exact succeeds_of_inTurn (Prod.ext hturns rfl)
    rw [inTurn_of_succeeds hsucceeds] at h
    cases h
    exact ⟨hsucceeds, rfl, rfl⟩
  · rintro ⟨hsucceeds, rfl, rfl⟩
    rw [inTurn_of_succeeds hsucceeds]
    rfl

theorem halted_iff (hloaded : p.loading = false) :
    p.halted = true ↔ ∀ v ∈ p.voices, v.due = false := by
  unfold halted
  rw [hloaded, Bool.not_false, Bool.true_and, List.all_eq_true]
  simp only [Bool.not_eq_true']

/-- A player that has not halted has a voice that is due. -/
theorem exists_due (hloaded : p.loading = false) (hrunning : p.halted = false) :
    ∃ (c : ℕ) (v : Voice), p.voices[c]? = some v ∧ v.due = true := by
  have hnotall : ¬ ∀ v ∈ p.voices, v.due = false := by
    rw [← halted_iff hloaded, hrunning]
    exact Bool.false_ne_true
  push Not at hnotall
  obtain ⟨v, hmem, hdue⟩ := hnotall
  obtain ⟨c, hv⟩ := List.mem_iff_getElem?.mp hmem
  exact ⟨c, v, hv, by simpa using hdue⟩

end Player

/-! ## A player with one voice -/

/-- All voices but that of a channel are at rest, and the table has been read. -/
structure Player.Solo (p : Player) (channel : ℕ) (v : Voice) : Prop where
  voice : p.voices[channel]? = some v
  others : ∀ (i : ℕ) (w : Voice), p.voices[i]? = some w → i ≠ channel → w.AtRest
  loaded : p.loading = false

namespace Player.Solo

variable {p : Player} {channel : ℕ} {v : Voice}

theorem halted_eq (h : p.Solo channel v) : p.halted = !v.due := by
  have hothers : (∀ w ∈ p.voices, w.due = false) ↔ v.due = false := by
    refine ⟨fun hall => hall v (List.mem_of_getElem? h.voice), fun hdue w hw => ?_⟩
    obtain ⟨i, hi⟩ := List.mem_iff_getElem?.mp hw
    by_cases hne : i = channel
    · subst hne
      rw [Option.some.inj (hi.symm.trans h.voice), hdue]
    · exact (h.others i w hi hne).2
  rw [Bool.eq_iff_iff, halted_iff h.loaded, hothers, Bool.not_eq_true']

theorem enter (h : p.Solo channel v) : (p.enter .frame).Solo channel v.beginFrame := by
  refine ⟨?_, fun i w hw hne => ?_, rfl⟩
  · rw [voices_enter, List.getElem?_map, h.voice]
    rfl
  · rw [voices_enter, List.getElem?_map] at hw
    obtain ⟨u, hu, rfl⟩ := Option.map_eq_some_iff.mp hw
    exact (h.others i u hu hne).beginFrame

/-- The other voices have turns, too, but as they are not due nothing happens in them. -/
theorem advance_of_ne (h : p.Solo channel v) {i : ℕ} {w : Voice} (hw : p.voices[i]? = some w)
    (hne : i ≠ channel) : Voice.advance p.memory i w = (.ok [], w) :=
  Voice.advance_of_not_due (h.others i w hw hne).2 p.memory i

theorem succeeds (h : p.Solo channel v) {settings : List Setting}
    (hsettings : (v.advance p.memory channel).1 = .ok settings) :
    Succeeds (Voice.advance p.memory) 0 p.voices := by
  intro i w hw
  rw [Nat.zero_add]
  by_cases hne : i = channel
  · subst hne
    rw [Option.some.inj (hw.symm.trans h.voice)]
    exact ⟨settings, hsettings⟩
  · rw [h.advance_of_ne hw hne]
    exact ⟨[], rfl⟩

theorem settings_eq (h : p.Solo channel v) :
    p.settings = settingsOf (Voice.advance p.memory) channel v := by
  unfold settings
  rw [flatMap_zipIdx_of_others h.voice fun i w hw hne => ?_]
  · rw [Nat.zero_add]
  · simp only [Nat.zero_add, settingsOf, h.advance_of_ne hw hne]

theorem turned (h : p.Solo channel v) :
    p.turned.Solo channel (v.advance p.memory channel).2 := by
  refine ⟨?_, fun i w hw hne => ?_, h.loaded⟩
  · rw [getElem?_voices_turned, h.voice]
    rfl
  · rw [getElem?_voices_turned] at hw
    obtain ⟨u, hu, rfl⟩ := Option.map_eq_some_iff.mp hw
    rw [h.advance_of_ne hu hne]
    exact h.others i u hu hne

/-- A step is the turn of the one voice. -/
theorem step (h : p.Solo channel v) {settings : List Setting} {next : Voice}
    (hadvance : v.advance p.memory channel = (.ok settings, next)) :
    ∃ p', p.step = (.ok (settings.map (Setting.write p.tick)), p') ∧ p'.Solo channel next ∧
      p'.memory = p.memory := by
  have hmine : p.settings = settings := by
    rw [h.settings_eq, settingsOf, hadvance]
  have hsolo : p.turned.Solo channel next := by
    have hturned := h.turned
    rwa [hadvance] at hturned
  refine ⟨p.turned, (step_eq_ok_iff h.loaded).mpr ⟨?_, ?_, rfl⟩, hsolo, rfl⟩
  · exact h.succeeds (by rw [hadvance])
  · rw [hmine]

/-- The player halts when its voice is no longer due. -/
theorem halts_of_frame {settings : List Setting} {advances : ℕ} {last : Voice}
    (hframe : v.Frame p.memory channel settings advances last) (h : p.Solo channel v) :
    ∃ writes p', Player.source.Halts p writes advances p' ∧
      writes.map Write.setting = settings ∧
      p'.Solo channel last ∧ p'.memory = p.memory := by
  generalize hmemory : p.memory = memory at hframe
  induction hframe generalizing p with
  | done hdue =>
      refine ⟨[], p, .done ?_, rfl, h, hmemory⟩
      exact h.halted_eq.trans (by rw [hdue]; rfl)
  | @advance v next last settings rest advances hdue hadvance hrest ih =>
      obtain ⟨p', hstep, hsolo, hmemory'⟩ := h.step (hmemory ▸ hadvance)
      obtain ⟨writes, p'', hhalts, hwrites, hsolo', hmemory''⟩ :=
        ih hsolo (hmemory'.trans hmemory)
      refine ⟨_, p'', .step ?_ hstep hhalts, ?_, hsolo', hmemory''⟩
      · exact h.halted_eq.trans (by rw [hdue]; rfl)
      · rw [List.map_append, hwrites, map_setting_write]

end Player.Solo

/-! ## Reading the table -/

/-- The voice that a table entry stands for. -/
def Voice.ofEntry (entry : UInt16) : Voice :=
  if entry = unusedEntry then idle else atStart entry

theorem Voice.due_ofEntry (entry : UInt16) : (ofEntry entry).due = false := by
  unfold ofEntry
  split <;> rfl

namespace Player

variable {memory : Memory} {channels : ℕ} {table : UInt16} {entries : ℕ → UInt16}

theorem step_load (h : ∀ i < channels, memory.readWord (table.toNat + 2 * i) = .ok (entries i)) :
    ((powerOn memory channels table).enter .init).step =
      (.ok [], ⟨memory, table, (List.range channels).map (Voice.ofEntry ∘ entries), false, 1⟩) := by
  have hload : ∀ (i : ℕ) (v : Voice), (List.replicate channels Voice.idle)[i]? = some v →
      Voice.load memory table i v = (.ok [], Voice.ofEntry (entries i)) := by
    intro i v hv
    have hi : i < channels := by
      have := (List.getElem?_eq_some_iff.mp hv).1
      rwa [List.length_replicate] at this
    unfold Voice.load Voice.ofEntry
    rw [h i hi]
  have hsucceeds : Succeeds (Voice.load memory table) 0 (List.replicate channels Voice.idle) := by
    intro i v hv
    rw [Nat.zero_add]
    exact ⟨[], by rw [hload i v hv]⟩
  have hsettings : ((List.replicate channels Voice.idle).zipIdx 0).flatMap
      (fun (v, i) => settingsOf (Voice.load memory table) i v) = [] := by
    rw [List.flatMap_eq_nil_iff]
    rintro ⟨v, i⟩ hv
    simp only [settingsOf, hload i v (List.mk_mem_zipIdx_iff_getElem?.mp hv)]
  have hvoices : (((List.replicate channels Voice.idle).zipIdx 0).map
      fun (v, i) => (Voice.load memory table i v).2) =
      (List.range channels).map (Voice.ofEntry ∘ entries) := by
    apply List.ext_getElem?
    intro i
    rcases Nat.lt_or_ge i channels with hi | hi
    · have hv : (List.replicate channels Voice.idle)[i]? = some Voice.idle := by simp [hi]
      simp [hi, hload i _ hv]
    · simp [hi]
  unfold Player.step
  simp only [enter, powerOn, if_true, inTurn_of_succeeds hsucceeds, hsettings, hvoices]
  rfl

/-- To set up a song takes one step if all entries of the table are there. -/
theorem halts_load (h : ∀ i < channels, memory.readWord (table.toNat + 2 * i) = .ok (entries i)) :
    source.Halts ((powerOn memory channels table).enter .init) [] 1
      ⟨memory, table, (List.range channels).map (Voice.ofEntry ∘ entries), false, 1⟩ := by
  show source.Halts _ ([] ++ []) (0 + 1) _
  refine .step rfl (step_load h) (.done ?_)
  show ((List.range channels).map (Voice.ofEntry ∘ entries)).all (fun v => !v.due) = true
  simp [Voice.due_ofEntry]

/-- A player that has been set up has found all entries of its table. -/
theorem exists_entry_of_run {budget : ℕ} {run : Run} {p : Player}
    (hrun : source.run budget (source.enter .init (powerOn memory channels table)) = (.ok run, p))
    (hhalted : run.outcome = .halted) :
    0 < budget ∧ ∀ i < channels, ∃ entry, memory.readWord (table.toNat + 2 * i) = .ok entry := by
  obtain ⟨hhalts, hsteps⟩ := Source.halts_of_run hrun hhalted
  generalize run.writes = writes at hhalts
  generalize run.steps = steps at hhalts hsteps
  cases hhalts with
  | done hover => cases hover
  | @step _ next _ writes _ steps hrunning hstep hrest =>
      refine ⟨by omega, fun i hi => ?_⟩
      have hturns : ((powerOn memory channels table).enter .init).step = (.ok writes, next) := hstep
      unfold Player.step at hturns
      simp only [Player.enter, powerOn, if_true] at hturns
      rcases hload : inTurn (Voice.load memory table) 0 (List.replicate channels .idle) with
        ⟨fault | settings, voices⟩
      · rw [hload] at hturns
        cases hturns
      · have hidle : (List.replicate channels Voice.idle)[i]? = some .idle := by simp [hi]
        obtain ⟨mine, hmine⟩ := succeeds_of_inTurn hload i .idle hidle
        rw [Nat.zero_add] at hmine
        unfold Voice.load at hmine
        cases hword : memory.readWord (table.toNat + 2 * i) with
        | ok entry => exact ⟨entry, rfl⟩
        | error fault =>
            rw [hword] at hmine
            cases hmine

/-- With no other entry in use, the player is solo on a channel. -/
theorem solo_load {channel : ℕ} (hchannel : channel < channels)
    (hothers : ∀ i < channels, i ≠ channel → entries i = unusedEntry) (tick : UInt32) :
    Solo ⟨memory, table, (List.range channels).map (Voice.ofEntry ∘ entries), false, tick⟩ channel
      (.ofEntry (entries channel)) := by
  refine ⟨?_, fun i w hw hne => ?_, rfl⟩
  · simp [hchannel]
  · have hw' : ((List.range channels).map (Voice.ofEntry ∘ entries))[i]? = some w := hw
    rw [List.getElem?_map] at hw'
    obtain ⟨j, hj, rfl⟩ := Option.map_eq_some_iff.mp hw'
    obtain ⟨hi, rfl⟩ := List.getElem?_eq_some_iff.mp hj
    rw [List.length_range] at hi
    rw [List.getElem_range, Function.comp_apply, hothers i hi hne, Voice.ofEntry, if_pos rfl]
    exact Voice.atRest_idle

end Player

end Chiptune.Script
