import Chiptune.Proofs.Replay.Calls
import Chiptune.Proofs.Replay.Histories
import Chiptune.Proofs.Script.Endless

/-!
# Where frames are cut

A frame that times out is cut: the next one begins while some voices are still reading,
and makes all voices due again.  This does not show in what a voice does.  To be due only
says when a voice goes on, not how, so what a voice sets and where it comes to is decided by
how often it has been advanced (`Voice.setIn`, `Player.voice_of_plays`), whatever calls did
that and whatever the other voices have done meanwhile.

So of two ways to play a song, the one that has advanced a voice more often has made it set
what it has set in the other one, and then some more (`Player.plays_alike`).  A voice that has
stopped is not due in any state that a player can be in (`Player.settled_after`), and then it
is left alone.
-/

namespace Chiptune.Script

namespace Voice

variable {memory : Memory} {channel : ℕ} {v w : Voice}

/-! ## Advances, whenever they come -/

/-- The voice, due whether it is or not. -/
def armed (v : Voice) : Voice :=
  { v with due := true }

@[simp] theorem armed_armed (v : Voice) : v.armed.armed = v.armed := rfl

theorem armed_eq_iff : v.armed = w.armed ↔ v.pc = w.pc ∧ v.activity = w.activity := by
  constructor
  · intro h
    have hpc : v.armed.pc = w.armed.pc := by rw [h]
    have hactivity : v.armed.activity = w.armed.activity := by rw [h]
    exact ⟨hpc, hactivity⟩
  · rintro ⟨hpc, hactivity⟩
    exact eq_of_pc hpc hactivity rfl

theorem armed_of_due (h : v.due = true) : v.armed = v := by
  obtain ⟨pc, activity, due⟩ := v
  subst h
  rfl

/-- The voice after its next advance, due for another one. -/
def advanced (memory : Memory) (channel : ℕ) (v : Voice) : Voice :=
  (turned memory channel v.armed).armed

theorem armed_iterate_advanced (v : Voice) (n : ℕ) :
    ((advanced memory channel)^[n] v.armed).armed = (advanced memory channel)^[n] v.armed := by
  cases n with
  | zero => rfl
  | succ n =>
      rw [Function.iterate_succ_apply']
      rfl

/-- What a voice sets in its next advances, however many frames they take. -/
def setIn (memory : Memory) (channel count : ℕ) (v : Voice) : List Setting :=
  (List.range count).flatMap fun i =>
    settingsOf (advance memory) channel ((advanced memory channel)^[i] v.armed)

theorem setIn_add {first : ℕ} (h : w.armed = (advanced memory channel)^[first] v.armed)
    (more : ℕ) :
    v.setIn memory channel (first + more) =
      v.setIn memory channel first ++ w.setIn memory channel more := by
  unfold setIn
  rw [List.range_add, List.flatMap_append, List.flatMap_map, h]
  simp only [← Function.iterate_add_apply, Nat.add_comm]

theorem setIn_prefix (v : Voice) {few many : ℕ} (h : few ≤ many) :
    v.setIn memory channel few <+: v.setIn memory channel many := by
  obtain ⟨more, rfl⟩ := Nat.exists_eq_add_of_le h
  rw [setIn_add (v.armed_iterate_advanced few)]
  exact List.prefix_append ..

/-! ## Voices that have stopped -/

/-- Having stopped, the voice is not due. -/
def Settled (v : Voice) : Prop :=
  v.activity = .stopped → v.due = false

theorem settled_beginFrame (v : Voice) : v.beginFrame.Settled := by
  intro hstopped
  have hactivity : v.activity = .stopped := hstopped
  show v.running = false
  unfold running
  rw [hactivity]
  rfl

theorem settled_execute (instruction : Instruction) (hready : v.activity = .ready) :
    (v.execute channel instruction).2.Settled := by
  cases htakes : instruction.takesFrame with
  | true =>
      obtain ⟨settings, activity, hexecute, -⟩ := execute_of_takesFrame htakes channel v
      rw [hexecute]
      exact fun _ => rfl
  | false =>
      obtain ⟨settings, hexecute, -⟩ := execute_of_not_takesFrame htakes channel v
      rw [hexecute]
      intro hstopped
      cases hready.symm.trans hstopped

theorem Settled.advance (h : v.Settled) : (v.advance memory channel).2.Settled := by
  obtain ⟨pc, activity, due⟩ := v
  cases due with
  | false => exact h
  | true =>
      cases activity with
      | stopped => exact fun _ => rfl
      | waiting remaining => exact fun _ => rfl
      | ramping ramp => exact fun _ => rfl
      | ready =>
          show (readOn memory channel ⟨pc, .ready, true⟩).2.Settled
          unfold readOn
          rcases (Instruction.read memory).run.run pc with ⟨e | instruction, after⟩
          · exact nofun
          · exact settled_execute instruction rfl

theorem Settled.load {table : UInt16} (h : v.Settled) :
    (v.load memory table channel).2.Settled := by
  unfold Voice.load
  cases memory.readWord (table.toNat + 2 * channel) with
  | error fault => exact h
  | ok entry => exact fun _ => due_ofEntry entry

theorem AtRest.beginFrame_eq (h : v.AtRest) : v.beginFrame = v :=
  eq_of_pc rfl rfl (h.beginFrame.2.trans h.2.symm)

end Voice

/-- What every turn keeps is true of all voices afterwards, those included that do not have
their turn because of a fault. -/
theorem forall_inTurn {P : Voice → Prop} {turn : Turn}
    (hturn : ∀ channel v, P v → P (turn channel v).2) {channel : ℕ} {voices : List Voice}
    (h : ∀ v ∈ voices, P v) : ∀ v ∈ (inTurn turn channel voices).2, P v := by
  induction voices generalizing channel with
  | nil => exact h
  | cons v rest ih =>
      obtain ⟨hv, hrest⟩ := List.forall_mem_cons.mp h
      have hfirst := hturn channel v hv
      have hothers : ∀ v ∈ (inTurn turn (channel + 1) rest).2, P v := ih hrest
      rw [inTurn]
      rcases hresult : turn channel v with ⟨fault | settings, v'⟩
      · rw [hresult] at hfirst
        exact List.forall_mem_cons.mpr ⟨hfirst, hrest⟩
      · rw [hresult] at hfirst
        rcases hlater : inTurn turn (channel + 1) rest with ⟨fault | more, rest'⟩
        all_goals
          rw [hlater] at hothers
          exact List.forall_mem_cons.mpr ⟨hfirst, hothers⟩

namespace Player

variable {p next last : Player} {call : Call} {writes : List Write} {channel : ℕ} {v : Voice}

/-- Whatever has been done with a player, no voice of it has stopped and is due. -/
theorem settled_after (memory : Memory) (channels : ℕ) (table : UInt16)
    (history : List Request) :
    ∀ v ∈ (source.after history (powerOn memory channels table)).voices, v.Settled := by
  refine Source.after_invariant (fun p : Player => ∀ v ∈ p.voices, v.Settled)
    ?enter ?step history ?start
  case enter =>
    intro routine p h
    cases routine with
    | init => exact h
    | frame =>
        intro v hv
        obtain ⟨w, -, rfl⟩ := List.mem_map.mp hv
        exact w.settled_beginFrame
  case step =>
    intro p h
    show ∀ v ∈ (inTurn (if p.loading then Voice.load p.memory p.table
      else Voice.advance p.memory) 0 p.voices).2, v.Settled
    cases p.loading with
    | true => exact forall_inTurn (fun _ _ hv => hv.load) h
    | false => exact forall_inTurn (fun _ _ hv => hv.advance) h
  case start =>
    intro v hv
    rw [List.eq_of_mem_replicate hv]
    exact fun _ => rfl

/-! ## What each voice does -/

/-- What each of the voices sets in answer to a call. -/
def shares (p : Player) : Call → List (List Setting)
  | .enter _ => []
  | .step => (p.voices.zipIdx 0).map fun (v, i) => settingsOf (Voice.advance p.memory) i v

/-- How often a call advances the voice of a channel. -/
def advancesIn (channel : ℕ) (p : Player) : Call → ℕ
  | .enter _ => 0
  | .step => if p.voices[channel]?.any Voice.due then 1 else 0

/-- What each of the voices sets in answer to calls, call by call. -/
def sharesAll (p : Player) : List Call → List (List (List Setting))
  | [] => []
  | call :: rest => p.shares call :: sharesAll (source.answer call p).2 rest

/-- What the voice of a channel sets in answer to calls. -/
def emitted (channel : ℕ) (p : Player) (calls : List Call) : List Setting :=
  (p.sharesAll calls).flatMap fun shares => shares[channel]?.getD []

/-- How often calls advance the voice of a channel. -/
def advances (channel : ℕ) (p : Player) : List Call → ℕ
  | [] => 0
  | call :: rest => p.advancesIn channel call + advances channel (source.answer call p).2 rest

/-- In answer to calls that begin frames and take steps a player makes reports, without a
fault, and comes to a last state. -/
structure Plays (p : Player) (calls : List Call) (reports : List (List Write)) (last : Player) :
    Prop where
  playing : ∀ call ∈ calls, call ≠ .enter .init
  answered : source.answerAll calls p = (.ok reports, last)

/-- A call that begins a frame or takes a step, of a player that has read its table. -/
theorem answer_cases (hloaded : p.loading = false) (hcall : call ≠ .enter .init)
    (hanswer : source.answer call p = (.ok writes, next)) :
    call = .enter .frame ∧ writes = [] ∧ next = p.enter .frame ∨
      call = .step ∧ Succeeds (Voice.advance p.memory) 0 p.voices ∧
        writes = p.settings.map (Setting.write p.tick) ∧ next = p.turned := by
  rcases call with (_ | _) | _
  · exact absurd rfl hcall
  · cases hanswer
    exact .inl ⟨rfl, rfl, rfl⟩
  · exact .inr ⟨rfl, (step_eq_ok_iff hloaded).mp hanswer⟩

theorem loading_answer (hloaded : p.loading = false) (hcall : call ≠ .enter .init)
    (hanswer : source.answer call p = (.ok writes, next)) :
    next.loading = false ∧ next.memory = p.memory := by
  rcases answer_cases hloaded hcall hanswer with ⟨-, -, rfl⟩ | ⟨-, -, -, rfl⟩
  · exact ⟨rfl, rfl⟩
  · exact ⟨hloaded, rfl⟩

/-- What is reported is what the voices set, one voice after the other. -/
theorem map_setting_answer (hloaded : p.loading = false) (hcall : call ≠ .enter .init)
    (hanswer : source.answer call p = (.ok writes, next)) :
    writes.map Write.setting = (p.shares call).flatten := by
  rcases answer_cases hloaded hcall hanswer with ⟨rfl, rfl, -⟩ | ⟨rfl, -, rfl, -⟩
  · rfl
  · rw [map_setting_write]
    rfl

/-- In answer to a call a voice does what it does in as many advances. -/
theorem voice_of_answer (hloaded : p.loading = false) (hcall : call ≠ .enter .init)
    (hanswer : source.answer call p = (.ok writes, next)) (hv : p.voices[channel]? = some v) :
    (p.shares call)[channel]?.getD [] = v.setIn p.memory channel (p.advancesIn channel call) ∧
      ∃ w, next.voices[channel]? = some w ∧
        w.armed = (Voice.advanced p.memory channel)^[p.advancesIn channel call] v.armed := by
  rcases answer_cases hloaded hcall hanswer with ⟨rfl, -, rfl⟩ | ⟨rfl, -, -, rfl⟩
  · refine ⟨rfl, v.beginFrame, ?_, rfl⟩
    rw [voices_enter, List.getElem?_map, hv]
    rfl
  · have hshare : (p.shares .step)[channel]?.getD [] =
        settingsOf (Voice.advance p.memory) channel v := by
      simp [shares, hv]
    have hnext : p.turned.voices[channel]? = some (v.advance p.memory channel).2 := by
      rw [getElem?_voices_turned, hv]
      rfl
    have hcount : p.advancesIn channel .step = if v.due then 1 else 0 := by
      simp only [advancesIn, hv, Option.any_some]
    rw [hshare, hcount]
    cases hdue : v.due with
    | true =>
        refine ⟨?_, _, hnext, ?_⟩
        · simp [Voice.setIn, Voice.armed_of_due hdue]
        · rw [if_pos rfl, Function.iterate_one, Voice.advanced, Voice.armed_armed,
            Voice.armed_of_due hdue, Voice.turned]
    | false =>
        rw [Voice.advance_of_not_due hdue] at hnext
        refine ⟨?_, v, hnext, rfl⟩
        simp [settingsOf, Voice.setIn, Voice.advance_of_not_due hdue]

/-! ## What voices do in answer to calls -/

theorem Plays.induct {motive : Player → List Call → List (List Write) → Player → Prop}
    (hnil : ∀ p, motive p [] [] p)
    (hcons : ∀ p call rest writes next reports last, p.loading = false → call ≠ .enter .init →
      source.answer call p = (.ok writes, next) → motive next rest reports last →
        motive p (call :: rest) (writes :: reports) last)
    {calls : List Call} {reports : List (List Write)} (hloaded : p.loading = false)
    (h : p.Plays calls reports last) : motive p calls reports last := by
  obtain ⟨hplaying, hanswered⟩ := h
  induction calls generalizing p reports with
  | nil =>
      cases hanswered
      exact hnil _
  | cons call rest ih =>
      obtain ⟨hcall, hrest⟩ := List.forall_mem_cons.mp hplaying
      obtain ⟨writes, next, reports, hanswer, hothers, rfl⟩ := Source.answerAll_cons_eq_ok hanswered
      have hnext := (loading_answer hloaded hcall hanswer).1
      exact hcons p call rest writes next reports last hloaded hcall hanswer
        (ih hnext hrest hothers)

variable {calls : List Call} {reports : List (List Write)}

theorem map_setting_of_plays (hloaded : p.loading = false) (h : p.Plays calls reports last) :
    reports.map (·.map Write.setting) = (p.sharesAll calls).map List.flatten := by
  refine Plays.induct (motive := fun p calls reports _ =>
    reports.map (·.map Write.setting) = (p.sharesAll calls).map List.flatten) ?_ ?_ hloaded h
  · exact fun _ => rfl
  · intro p call rest writes next reports last hloaded hcall hanswer ih
    rw [sharesAll, List.map_cons, List.map_cons, map_setting_answer hloaded hcall hanswer,
      hanswer, ih]

theorem emitted_cons (channel : ℕ) (p : Player) (call : Call) (rest : List Call) :
    p.emitted channel (call :: rest) =
      (p.shares call)[channel]?.getD [] ++ (source.answer call p).2.emitted channel rest := by
  unfold emitted
  rw [sharesAll, List.flatMap_cons]

/-- In answer to calls a voice does what it does in as many advances. -/
theorem voice_of_plays (hloaded : p.loading = false) (h : p.Plays calls reports last)
    (hv : p.voices[channel]? = some v) :
    p.emitted channel calls = v.setIn p.memory channel (p.advances channel calls) ∧
      ∃ w, last.voices[channel]? = some w ∧
        w.armed = (Voice.advanced p.memory channel)^[p.advances channel calls] v.armed := by
  refine Plays.induct (motive := fun p calls _ last => ∀ v, p.voices[channel]? = some v →
    p.emitted channel calls = v.setIn p.memory channel (p.advances channel calls) ∧
      ∃ w, last.voices[channel]? = some w ∧
        w.armed = (Voice.advanced p.memory channel)^[p.advances channel calls] v.armed)
    ?_ ?_ hloaded h v hv
  · exact fun p v hv => ⟨rfl, v, hv, rfl⟩
  · intro p call rest writes next reports last hloaded hcall hanswer ih v hv
    obtain ⟨hshare, w, hw, harmed⟩ := voice_of_answer hloaded hcall hanswer hv
    obtain ⟨hrest, u, hu, hlast⟩ := ih w hw
    have hmemory := (loading_answer hloaded hcall hanswer).2
    rw [hmemory] at hrest hlast
    rw [emitted_cons, advances, hshare, hanswer]
    refine ⟨?_, u, hu, ?_⟩
    · rw [hrest, ← Voice.setIn_add harmed]
    · rw [hlast, harmed, ← Function.iterate_add_apply, Nat.add_comm]

/-- A voice at rest is left alone. -/
theorem rest_of_plays (hloaded : p.loading = false) (h : p.Plays calls reports last)
    (hv : p.voices[channel]? = some v) (hrest : v.AtRest) :
    p.emitted channel calls = [] ∧ last.voices[channel]? = some v := by
  refine Plays.induct (motive := fun p calls _ last => p.voices[channel]? = some v →
    p.emitted channel calls = [] ∧ last.voices[channel]? = some v) ?_ ?_ hloaded h hv
  · exact fun p hv => ⟨rfl, hv⟩
  · intro p call rest writes next reports last hloaded hcall hanswer ih hv
    have hnext : (p.shares call)[channel]?.getD [] = [] ∧ next.voices[channel]? = some v := by
      rcases answer_cases hloaded hcall hanswer with ⟨rfl, -, rfl⟩ | ⟨rfl, -, -, rfl⟩
      · refine ⟨rfl, ?_⟩
        rw [voices_enter, List.getElem?_map, hv, Option.map_some, hrest.beginFrame_eq]
      · have hadvance := Voice.advance_of_not_due hrest.2 p.memory channel
        constructor
        · simp [shares, hv, settingsOf, hadvance]
        · rw [getElem?_voices_turned, hv, Option.map_some, hadvance]
    obtain ⟨hmore, hlast⟩ := ih hnext.2
    rw [emitted_cons, hanswer, hnext.1, hmore]
    exact ⟨rfl, hlast⟩

/-- A player whose voices are all at rest stays as it is. -/
theorem allAtRest_of_plays (hloaded : p.loading = false) (h : p.Plays calls reports last)
    (hrest : ∀ v ∈ p.voices, v.AtRest) : ∀ v ∈ last.voices, v.AtRest := by
  refine Plays.induct (motive := fun p _ _ last => (∀ v ∈ p.voices, v.AtRest) →
    ∀ v ∈ last.voices, v.AtRest) ?_ ?_ hloaded h hrest
  · exact fun _ hrest => hrest
  · intro p call rest writes next reports last hloaded hcall hanswer ih hrest
    refine ih fun w hw => ?_
    rcases answer_cases hloaded hcall hanswer with ⟨-, -, rfl⟩ | ⟨-, -, -, rfl⟩
    · obtain ⟨v, hv, rfl⟩ := List.mem_map.mp hw
      exact (hrest v hv).beginFrame
    · obtain ⟨channel, hchannel⟩ := List.mem_iff_getElem?.mp hw
      rw [getElem?_voices_turned] at hchannel
      obtain ⟨v, hv, rfl⟩ := Option.map_eq_some_iff.mp hchannel
      have hatRest := hrest v (List.mem_of_getElem? hv)
      rwa [Voice.advance_of_not_due hatRest.2]

/-- However frames are cut, what a voice does is decided by how often it is advanced.

In any state that a player can be in, two ways to play on that do not fault may be compared.
A voice that is advanced no more often in the first than in the second has set, in the first,
the beginning of what it has set in the second; if it is advanced as often it has set the same
and come to the same place.  A voice that has stopped sets nothing from then on and is not due
again, and when all voices have stopped every frame halts at once. -/
theorem plays_alike (memory : Memory) (channels : ℕ) (table : UInt16) (history : List Request)
    (hloaded : (source.after history (powerOn memory channels table)).loading = false) :
    let p := source.after history (powerOn memory channels table)
    (∀ calls reports last, p.Plays calls reports last →
      reports.map (·.map Write.setting) = (p.sharesAll calls).map List.flatten) ∧
    (∀ calls reports last calls' reports' last',
      p.Plays calls reports last → p.Plays calls' reports' last' →
        ∀ channel < p.voices.length, p.advances channel calls ≤ p.advances channel calls' →
          p.emitted channel calls <+: p.emitted channel calls' ∧
          (p.advances channel calls = p.advances channel calls' →
            p.emitted channel calls = p.emitted channel calls' ∧
            ∃ v v', last.voices[channel]? = some v ∧ last'.voices[channel]? = some v' ∧
              v.pc = v'.pc ∧ v.activity = v'.activity)) ∧
    ∀ calls reports last, p.Plays calls reports last →
      (∀ channel v, p.voices[channel]? = some v → v.activity = .stopped →
        p.emitted channel calls = [] ∧ last.voices[channel]? = some v ∧ v.due = false) ∧
      (p.runningVoices = 0 → ∀ budget, source.run budget (source.enter .frame last) =
        (.ok ⟨[], 0, .halted⟩, source.enter .frame last)) := by
  intro p
  have hsettled : ∀ v ∈ p.voices, v.Settled := settled_after memory channels table history
  refine ⟨fun calls reports last h => map_setting_of_plays hloaded h, ?_, ?_⟩
  · intro calls reports last calls' reports' last' h h' channel hchannel hle
    have hv : p.voices[channel]? = some p.voices[channel] := List.getElem?_eq_getElem hchannel
    obtain ⟨hset, v, hlast, hcome⟩ := voice_of_plays hloaded h hv
    obtain ⟨hset', v', hlast', hcome'⟩ := voice_of_plays hloaded h' hv
    rw [hset, hset']
    refine ⟨Voice.setIn_prefix _ hle, fun hsame => ?_⟩
    rw [hsame] at hcome ⊢
    exact ⟨rfl, v, v', hlast, hlast', Voice.armed_eq_iff.mp (hcome.trans hcome'.symm)⟩
  · intro calls reports last h
    have hstopped : ∀ channel v, p.voices[channel]? = some v → v.activity = .stopped →
        p.emitted channel calls = [] ∧ last.voices[channel]? = some v ∧ v.due = false := by
      intro channel v hv hactivity
      have hdue := hsettled v (List.mem_of_getElem? hv) hactivity
      obtain ⟨hnone, hlast⟩ := rest_of_plays hloaded h hv ⟨hactivity, hdue⟩
      exact ⟨hnone, hlast, hdue⟩
    refine ⟨hstopped, fun hover budget => Source.run_of_halted source ?_ budget⟩
    have hrest : ∀ v ∈ p.voices, v.AtRest := by
      intro v hv
      have hactivity : v.activity = .stopped := by
        simpa [Voice.running] using List.countP_eq_zero.mp hover v hv
      exact ⟨hactivity, hsettled v hv hactivity⟩
    refine (halted_iff (p := last.enter .frame) rfl).mpr fun v hv => ?_
    obtain ⟨w, hw, rfl⟩ := List.mem_map.mp hv
    exact (allAtRest_of_plays hloaded h hrest w hw).beginFrame.2

/-- Cut after every step, three frames bring the second voice to where it comes in one, and
the first voice further. -/
theorem plays_alike_cut :
    let memory : Memory :=
      ⟨⟨#[4, 0, 9, 0, 4, 64, 0, 3, 0, 1, 1, 2, 1, 0xAC, 6, 2, 9]⟩⟩
    let p := source.after [.enter .init, .run 10] (powerOn memory 2 0)
    let whole : List Call := [.enter .frame, .step, .step, .step]
    let cut : List Call := [.enter .frame, .step, .enter .frame, .step, .enter .frame, .step]
    p.emitted 0 whole <+: p.emitted 0 cut ∧
      p.emitted 0 whole = [⟨2, 64⟩] ∧ p.emitted 0 cut = [⟨2, 64⟩, ⟨2, 32⟩, ⟨2, 0⟩] ∧
      p.emitted 1 whole = p.emitted 1 cut ∧
      p.emitted 1 whole = [⟨7, 1⟩, ⟨4, 1⟩, ⟨5, 0xAC⟩] := by
  intro memory p whole cut
  have hwhole : p.Plays whole
      [[], [⟨2, 64, 0⟩, ⟨7, 1, 0⟩], [⟨4, 1, 1⟩, ⟨5, 0xAC, 1⟩], []] _ :=
    ⟨by decide, Prod.ext (by decide) rfl⟩
  have hcut : p.Plays cut
      [[], [⟨2, 64, 0⟩, ⟨7, 1, 0⟩], [], [⟨2, 32, 0⟩, ⟨4, 1, 0⟩, ⟨5, 0xAC, 0⟩], [], [⟨2, 0, 0⟩]] _ :=
    ⟨by decide, Prod.ext (by decide) rfl⟩
  obtain ⟨-, halike, -⟩ := plays_alike memory 2 0 [.enter .init, .run 10] (by decide)
  obtain ⟨hfirst, -⟩ := halike _ _ _ _ _ _ hwhole hcut 0 (by decide) (by decide)
  obtain ⟨-, hsecond⟩ := halike _ _ _ _ _ _ hwhole hcut 1 (by decide) (by decide)
  exact ⟨hfirst, by decide, by decide, (hsecond (by decide)).1, by decide⟩

end Player

end Chiptune.Script
