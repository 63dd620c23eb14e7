import Chiptune.Proofs.Pattern.Rows
import Chiptune.Proofs.Replay.Calls
import Chiptune.Proofs.Script.Isolation
import Mathlib.Data.Finset.Lattice.Fold
import Mathlib.Order.Lattice.Nat

/-!
# A player is the product of its voices

The voices of a player share a memory, which they only read, and a tick, which goes
on whether they do anything or not.  So from the beginning of a frame on, whatever
calls are made, every voice does what it does in the same player with all other
voices idle, and what the player writes is put together from what these write
(`Player.answerAll_product`).

Making the other voices idle commutes with every call (`Player.enter_only`,
`Player.step_only`), so the two players go in lock-step, and the state of the second
is a function of that of the first.  Only when they are run until they halt does the
second one stop earlier, namely when its voice is no longer due.  The full player
goes on for its slowest voice (`Player.exists_halts_only`).
-/

namespace Chiptune

/-- A write to one of the registers of a channel. -/
def Write.On (w : Write) (channel : ℕ) : Prop :=
  channel * Paula.stride ≤ w.register.toNat ∧ w.register.toNat < (channel + 1) * Paula.stride

instance (w : Write) (channel : ℕ) : Decidable (w.On channel) :=
  inferInstanceAs (Decidable (_ ∧ _))

theorem Write.on_iff {w : Write} {channel : ℕ} : w.On channel ↔ w.setting.channel = channel := by
  unfold On Setting.channel Write.setting Paula.stride
  dsimp only
  omega

/-- The writes to the registers of a channel. -/
def writesOn (channel : ℕ) (writes : List Write) : List Write :=
  writes.filter (·.On channel)

theorem writesOn_map_write (channel : ℕ) (tick : UInt32) (settings : List Setting) :
    writesOn channel (settings.map (Setting.write tick)) =
      (ofChannel channel settings).map (Setting.write tick) := by
  unfold writesOn ofChannel
  rw [List.filter_map]
  congr 2
  funext s
  exact decide_eq_decide.mpr Write.on_iff

/-- Writes to the first `count` channels, in the order of the channels. -/
structure ChannelOrdered (count : ℕ) (writes : List Write) : Prop where
  exists_unique : ∀ w ∈ writes, ∃! channel, channel < count ∧ w.On channel
  pairwise : writes.Pairwise fun w w' =>
    ∀ channel channel', w.On channel → w'.On channel' → channel ≤ channel'

theorem ChannelOrdered.nil (count : ℕ) : ChannelOrdered count [] :=
  ⟨fun _ hw => absurd hw List.not_mem_nil, .nil⟩

theorem ChannelOrdered.map_write {count : ℕ} {settings : List Setting}
    (hlt : ∀ s ∈ settings, s.channel < count)
    (hpairwise : settings.Pairwise fun s s' => s.channel ≤ s'.channel) (tick : UInt32) :
    ChannelOrdered count (settings.map (Setting.write tick)) := by
  constructor
  · intro w hw
    obtain ⟨s, hs, rfl⟩ := List.mem_map.mp hw
    refine ⟨s.channel, ⟨hlt s hs, Write.on_iff.mpr rfl⟩, fun channel hchannel => ?_⟩
    exact (Write.on_iff.mp hchannel.2).symm
  · rw [List.pairwise_map]
    apply hpairwise.imp
    intro s s' hle channel channel' hs hs'
    rw [← Write.on_iff.mp hs, ← Write.on_iff.mp hs']
    exact hle

namespace Script

namespace Player

/-- The player with all voices idle but that of a channel. -/
def only (p : Player) (channel : ℕ) : Player :=
  { p with voices := p.voices.mapIdx fun i v => if i = channel then v else .idle }

variable {p next last : Player} {channel : ℕ} {v : Voice} {writes : List Write}

theorem getElem?_voices_only (p : Player) (channel i : ℕ) :
    (p.only channel).voices[i]? = p.voices[i]?.map fun v => if i = channel then v else .idle :=
  List.getElem?_mapIdx

theorem voices_only_self (hv : p.voices[channel]? = some v) :
    (p.only channel).voices[channel]? = some v := by
  rw [getElem?_voices_only, hv, Option.map_some, if_pos rfl]

/-- Players that differ at most in their voices are equal if their voices are. -/
theorem eq_of_voices {q : Player} (h : q = { p with voices := q.voices })
    (hvoices : ∀ i : ℕ, q.voices[i]? = p.voices[i]?) : q = p := by
  rw [h, List.ext_getElem? hvoices]

/-- The table has been read, and every voice has a channel that writes can reach. -/
structure Playing (count : ℕ) (p : Player) : Prop where
  loaded : p.loading = false
  length_voices : p.voices.length = count
  room : count ≤ 64

variable {count : ℕ}

theorem playing_enter (p : Player) (hroom : p.voices.length ≤ 64) :
    (p.enter .frame).Playing p.voices.length :=
  ⟨rfl, List.length_map _, hroom⟩

theorem Playing.step (h : p.Playing count) (hstep : p.step = (.ok writes, next)) :
    next.Playing count := by
  obtain ⟨-, -, rfl⟩ := (step_eq_ok_iff h.loaded).mp hstep
  exact ⟨h.loaded, (length_voices_turned p).trans h.length_voices, h.room⟩

theorem Playing.exists_voice (h : p.Playing count) (hchannel : channel < count) :
    ∃ v, p.voices[channel]? = some v := by
  rw [← h.length_voices] at hchannel
  exact ⟨p.voices[channel], List.getElem?_eq_getElem hchannel⟩

theorem solo_only (hloaded : p.loading = false) (hv : p.voices[channel]? = some v) :
    (p.only channel).Solo channel v := by
  refine ⟨voices_only_self hv, fun i w hw hne => ?_, hloaded⟩
  rw [getElem?_voices_only] at hw
  obtain ⟨_, -, rfl⟩ := Option.map_eq_some_iff.mp hw
  rw [if_neg hne]
  exact Voice.atRest_idle

/-! ## Calls and idle voices -/

theorem enter_only (p : Player) (channel : ℕ) :
    (p.only channel).enter .frame = (p.enter .frame).only channel := by
  apply eq_of_voices rfl
  intro i
  rw [getElem?_voices_only, voices_enter, voices_enter, List.getElem?_map, List.getElem?_map,
    getElem?_voices_only, Option.map_map, Option.map_map]
  congr 1
  funext v
  -- An idle voice does not become due.
  exact apply_ite Voice.beginFrame _ _ _

theorem turned_only (p : Player) (channel : ℕ) :
    (p.only channel).turned = p.turned.only channel := by
  apply eq_of_voices rfl
  intro i
  rw [getElem?_voices_turned, getElem?_voices_only, getElem?_voices_only, getElem?_voices_turned,
    Option.map_map, Option.map_map]
  congr 1
  funext v
  show (Voice.advance p.memory i (if i = channel then v else .idle)).2 =
    if i = channel then (Voice.advance p.memory i v).2 else .idle
  split
  · rfl
  · rw [Voice.advance_of_not_due rfl]

/-- A step of a voice with all others idle makes the writes that it makes in the full player. -/
theorem step_only (h : p.Playing count) (hchannel : channel < count)
    (hstep : p.step = (.ok writes, next)) :
    (p.only channel).step = (.ok (writesOn channel writes), next.only channel) := by
  obtain ⟨v, hv⟩ := h.exists_voice hchannel
  have hsolo := solo_only h.loaded hv
  obtain ⟨hsucceeds, rfl, rfl⟩ := (step_eq_ok_iff h.loaded).mp hstep
  obtain ⟨settings, hok⟩ := hsucceeds channel v hv
  rw [Nat.zero_add] at hok
  have hroom : p.voices.length ≤ 64 := h.length_voices.le.trans h.room
  have hwrites : writesOn channel (p.settings.map (Setting.write p.tick)) =
      (p.only channel).settings.map (Setting.write p.tick) := by
    rw [writesOn_map_write, ofChannel_settings hroom hv, hsolo.settings_eq]
    rfl
  rw [hwrites, ← turned_only]
  exact (step_eq_ok_iff hsolo.loaded).mpr ⟨hsolo.succeeds hok, rfl, rfl⟩

/-- The settings of a step are for the voices of the player, one voice after the other. -/
theorem settings_ordered (hroom : p.voices.length ≤ 64) :
    (∀ s ∈ p.settings, s.channel < p.voices.length) ∧
      p.settings.Pairwise fun s s' => s.channel ≤ s'.channel := by
  -- Whatever a voice sets is on its channel.
  have hchannel : ∀ x ∈ p.voices.zipIdx 0, x.2 < p.voices.length ∧
      ∀ s ∈ settingsOf (Voice.advance p.memory) x.2 x.1, s.channel = x.2 := by
    rintro ⟨v, i⟩ hx
    have hi : i < p.voices.length :=
      (List.getElem?_eq_some_iff.mp (List.mk_mem_zipIdx_iff_getElem?.mp hx)).1
    refine ⟨hi, fun s => ?_⟩
    exact channel_of_within (Voice.within_settingsOf p.memory i v) (Nat.lt_of_lt_of_le hi hroom)
  unfold settings
  constructor
  · intro s hs
    obtain ⟨x, hx, hs⟩ := List.mem_flatMap.mp hs
    obtain ⟨hlt, hall⟩ := hchannel x hx
    exact (hall s hs).trans_lt hlt
  · rw [List.pairwise_flatMap]
    constructor
    · intro x hx
      obtain ⟨-, hall⟩ := hchannel x hx
      refine List.pairwise_of_forall_mem_list fun s hs s' hs' => ?_
      exact ((hall s hs).trans (hall s' hs').symm).le
    · apply (pairwise_zipIdx _).imp_of_mem
      intro x y hx hy hlt s hs s' hs'
      rw [(hchannel x hx).2 s hs, (hchannel y hy).2 s' hs']
      exact hlt.le

theorem Playing.channelOrdered_step (h : p.Playing count) (hstep : p.step = (.ok writes, next)) :
    ChannelOrdered count writes := by
  obtain ⟨hloaded, rfl, hroom⟩ := h
  obtain ⟨-, rfl, -⟩ := (step_eq_ok_iff hloaded).mp hstep
  obtain ⟨hlt, hpairwise⟩ := settings_ordered hroom
  exact .map_write hlt hpairwise p.tick

/-! ## The slowest voice -/

theorem halted_only (hloaded : p.loading = false) (hv : p.voices[channel]? = some v) :
    (p.only channel).halted = !v.due :=
  (solo_only hloaded hv).halted_eq

theorem Playing.exists_due (h : p.Playing count) (hrunning : p.halted = false) :
    ∃ c < count, ∃ v, p.voices[c]? = some v ∧ v.due = true := by
  obtain ⟨c, v, hv, hdue⟩ := Player.exists_due h.loaded hrunning
  have hc : c < p.voices.length := (List.getElem?_eq_some_iff.mp hv).1
  exact ⟨c, h.length_voices ▸ hc, v, hv, hdue⟩

/-- A player that takes some steps to halt has a voice that takes as many on its own. -/
theorem exists_halts_only {steps : ℕ} (hhalts : source.Halts p writes steps last)
    (h : p.Playing count) (hsteps : 0 < steps) :
    ∃ c < count, ∃ mine alone, source.Halts (p.only c) mine steps alone := by
  induction hhalts with
  | done => exact absurd hsteps (Nat.lt_irrefl 0)
  | @step p next last writes rest steps hrunning hstep hrest ih =>
      have hnext : next.Playing count := h.step hstep
      have hvoice : ∀ {c : ℕ} {v : Voice}, p.voices[c]? = some v →
          next.voices[c]? = some (v.advance p.memory c).2 := by
        intro c v hv
        rw [((step_eq_ok_iff h.loaded).mp hstep).2.2, getElem?_voices_turned, hv]
        rfl
      -- Some voice is due and, on its own, also takes all the steps that come after this one.
      obtain ⟨c, hc, v, hv, hdue, mine, alone, hmine⟩ : ∃ c < count, ∃ v,
          p.voices[c]? = some v ∧ v.due = true ∧
            ∃ mine alone, source.Halts (next.only c) mine steps alone := by
        cases hrest with
        | done hover =>
            obtain ⟨c, hc, v, hv, hdue⟩ := h.exists_due hrunning
            have hdue' := (halted_iff hnext.loaded).mp hover _ (List.mem_of_getElem? (hvoice hv))
            refine ⟨c, hc, v, hv, hdue, [], next.only c, .done ?_⟩
            exact (halted_only hnext.loaded (hvoice hv)).trans (by rw [hdue']; rfl)
        | step =>
            obtain ⟨c, hc, mine, alone, hmine⟩ := ih hnext (Nat.succ_pos _)
            obtain ⟨v, hv⟩ := h.exists_voice hc
            refine ⟨c, hc, v, hv, ?_, mine, alone, hmine⟩
            cases hmine with
            | step hrunning' =>
                have hdue : (next.only c).halted = false := hrunning'
                rw [halted_only hnext.loaded (hvoice hv), Bool.not_eq_false'] at hdue
                exact Voice.due_of_advance hdue
      refine ⟨c, hc, _, alone, .step ?_ (step_only h hc hstep) hmine⟩
      exact (halted_only h.loaded hv).trans (by rw [hdue]; rfl)

theorem Playing.part_only (h : p.Playing count) (hchannel : channel < count) :
    Part channel p (p.only channel) := by
  obtain ⟨v, hv⟩ := h.exists_voice hchannel
  exact ⟨rfl, h.loaded, h.length_voices.le.trans h.room, v, hv, solo_only h.loaded hv⟩

/-- The steps that a player takes to halt are those of its slowest voice. -/
theorem steps_eq_sup {budget : ℕ} {run : Run} (h : p.Playing count)
    (hrun : source.run budget p = (.ok run, last)) (hhalted : run.outcome = .halted) :
    ∃ alone : ℕ → Run,
      (∀ c < count, (source.run budget (p.only c)).1 = .ok (alone c) ∧
        (alone c).outcome = .halted) ∧
      run.steps = (Finset.range count).sup fun c => (alone c).steps := by
  obtain ⟨hhalts, hsteps⟩ := Source.halts_of_run hrun hhalted
  -- On its own, a voice halts in no more steps than the player.
  have halone : ∀ c < count, ∃ mine : Run,
      (source.run budget (p.only c)).1 = .ok mine ∧ mine.outcome = .halted ∧
        mine.steps ≤ run.steps := by
    intro c hc
    obtain ⟨mine, few, q, hmine, hfew, -⟩ := (h.part_only hc).halts hhalts
    exact ⟨_, by rw [Source.run_eq_of_halts hmine (hfew.trans hsteps)], rfl, hfew⟩
  have : Nonempty Run := ⟨run⟩
  choose! alone hone hover hfew using halone
  refine ⟨alone, fun c hc => ⟨hone c hc, hover c hc⟩, le_antisymm ?_ ?_⟩
  · rcases Nat.eq_zero_or_pos run.steps with hzero | hpos
    · exact hzero.le.trans (Nat.zero_le _)
    · obtain ⟨c, hc, mine, q, hmine⟩ := exists_halts_only hhalts h hpos
      have hsame := hone c hc
      rw [Source.run_eq_of_halts hmine hsteps] at hsame
      have hslow : (alone c).steps = run.steps := by
        rw [← Except.ok.inj hsame]
      rw [← hslow]
      exact Finset.le_sup (f := fun c => (alone c).steps) (Finset.mem_range.mpr hc)
  · exact Finset.sup_le fun c hc => hfew c (Finset.mem_range.mp hc)

/-! ## The product -/

/-- A call between the beginning of a frame and the next setting up. -/
theorem answer_only (h : p.Playing count) {call : Call} (hcall : call ≠ .enter .init)
    (hanswer : source.answer call p = (.ok writes, next)) :
    next.Playing count ∧ ChannelOrdered count writes ∧
      ∀ c < count, source.answer call (p.only c) = (.ok (writesOn c writes), next.only c) := by
  rcases call with (_ | _) | _
  · exact absurd rfl hcall
  · cases hanswer
    have hnext : (p.enter .frame).Playing count := by
      have hroom : p.voices.length ≤ 64 := h.length_voices.le.trans h.room
      exact h.length_voices ▸ playing_enter p hroom
    refine ⟨hnext, .nil count, fun c _ => ?_⟩
    exact Prod.ext rfl (enter_only p c)
  · exact ⟨h.step hanswer, h.channelOrdered_step hanswer, fun c hc => step_only h hc hanswer⟩

/-- From the beginning of a frame on, calls of a player and calls of one of its voices
go in lock-step. -/
theorem answerAll_only (hroom : p.voices.length ≤ 64) {calls : List Call}
    (hcalls : ∀ call ∈ calls, call ≠ .enter .init) {reports : List (List Write)}
    (h : source.answerAll (.enter .frame :: calls) p = (.ok reports, last)) :
    last.voices.length = p.voices.length ∧
      (∀ report ∈ reports, ChannelOrdered p.voices.length report) ∧
      ∀ c < p.voices.length, source.answerAll (.enter .frame :: calls) (p.only c) =
        (.ok (reports.map (writesOn c)), last.only c) := by
  obtain ⟨_, next, rest, hfirst, hrest, rfl⟩ := Source.answerAll_cons_eq_ok h
  cases hfirst
  have hstart := playing_enter p hroom
  obtain ⟨hlast, hordered⟩ : last.Playing p.voices.length ∧
      ∀ report ∈ rest, ChannelOrdered p.voices.length report := by
    refine Source.answerAll_invariant (Playing p.voices.length) _ ?_ hstart hrest
    intro call hcall q writes next hq hanswer
    obtain ⟨hnext, hordered, -⟩ := answer_only hq (hcalls call hcall) hanswer
    exact ⟨hnext, hordered⟩
  refine ⟨hlast.length_voices, List.forall_mem_cons.mpr ⟨.nil _, hordered⟩, ?_⟩
  intro c hc
  have hfirst : source.answer (.enter .frame) (p.only c) = (.ok [], (p.enter .frame).only c) :=
    Prod.ext rfl (enter_only p c)
  have hothers : source.answerAll calls ((p.enter .frame).only c) =
      (.ok (rest.map (writesOn c)), last.only c) := by
    refine Source.answerAll_translate source (Playing p.voices.length) (·.only c) (writesOn c)
      ?_ hstart hrest
    intro call hcall q writes next hq hanswer
    obtain ⟨hnext, -, hmine⟩ := answer_only hq (hcalls call hcall) hanswer
    exact ⟨hnext, hmine c hc⟩
  exact Source.answerAll_cons_of_ok hfirst hothers

/-- The steps of a frame that a player plays to its end are those of its slowest voice. -/
theorem run_frame_only (hroom : p.voices.length ≤ 64) {budget : ℕ} {run : Run}
    (hrun : source.run budget (p.enter .frame) = (.ok run, last))
    (hhalted : run.outcome = .halted) :
    ∃ alone : ℕ → Run,
      (∀ c < p.voices.length,
        (source.run budget ((p.only c).enter .frame)).1 = .ok (alone c) ∧
          (alone c).outcome = .halted) ∧
      run.steps = (Finset.range p.voices.length).sup fun c => (alone c).steps := by
  obtain ⟨alone, halone, hsup⟩ := steps_eq_sup (playing_enter p hroom) hrun hhalted
  simp only [← enter_only] at halone
  exact ⟨alone, halone, hsup⟩

/-- Whatever is done with a player before, from the beginning of a frame on it is the
product of its voices.  Every voice reports the writes, at the ticks, and comes to the
state that it does with all others idle; a write belongs to one voice, and within a
step the voices write one after the other.  So a frame lasts as long as its slowest
voice. -/
theorem answerAll_product (p : Player) (hroom : p.voices.length ≤ 64) :
    (∀ calls : List Call, (∀ call ∈ calls, call ≠ .enter .init) →
      ∀ reports last,
        source.answerAll (.enter .frame :: calls) p = (.ok reports, last) →
          (∀ report ∈ reports, ChannelOrdered p.voices.length report) ∧
          ∀ c < p.voices.length, ∃ alone v,
            source.answerAll (.enter .frame :: calls) (p.only c) =
              (.ok (reports.map (writesOn c)), alone) ∧
            last.voices[c]? = some v ∧ alone.voices[c]? = some v) ∧
    ∀ budget run last,
      source.run budget (source.enter .frame p) = (.ok run, last) → run.outcome = .halted →
        ∃ alone : ℕ → Run,
          (∀ c < p.voices.length,
            (source.run budget (source.enter .frame (p.only c))).1 = .ok (alone c) ∧
              (alone c).outcome = .halted) ∧
          run.steps = (Finset.range p.voices.length).sup fun c => (alone c).steps := by
  constructor
  · intro calls hcalls reports last h
    obtain ⟨hlength, hordered, halone⟩ := answerAll_only hroom hcalls h
    refine ⟨hordered, fun c hc => ?_⟩
    have hc' : c < last.voices.length := by rwa [hlength]
    have hv : last.voices[c]? = some last.voices[c] := List.getElem?_eq_getElem hc'
    exact ⟨last.only c, _, halone c hc, hv, voices_only_self hv⟩
  · intro budget run last hrun hhalted
    exact run_frame_only hroom hrun hhalted

/-- A table of two voices, and their scripts: the first fades in three frames, the
second begins a note, stays for two frames and then finds no instruction. -/
def fadeAndNote : Memory :=
  ⟨⟨#[4, 0, 9, 0, 4, 64, 0, 3, 0, 1, 1, 2, 1, 0xAC, 6, 2, 9]⟩⟩

/-- A player that was interrupted in a frame begins the next one, in which the second
voice takes a step more than the first. -/
theorem answerAll_product_fadeAndNote :
    let p := (source.answerAll [.enter .init, .step, .enter .frame, .step]
      (powerOn fadeAndNote 2 0)).2
    let calls : List Call := [.enter .frame, .step, .step]
    p.voices.length ≤ 64 ∧
      (source.answerAll calls p).1 = .ok [[], [⟨2, 32, 0⟩, ⟨4, 1, 0⟩, ⟨5, 0xAC, 0⟩], []] ∧
      (source.answerAll calls (p.only 1)).1 = .ok [[], [⟨4, 1, 0⟩, ⟨5, 0xAC, 0⟩], []] ∧
      ∃ alone : ℕ → Run,
        (∀ c < 2, (source.run 9 (source.enter .frame (p.only c))).1 = .ok (alone c)) ∧
        ((Finset.range 2).sup fun c => (alone c).steps) = 2 := by
  intro p calls
  have hlength : p.voices.length = 2 := by decide
  have hroom : p.voices.length ≤ 64 := by decide
  have hreports : (source.answerAll calls p).1 =
      .ok [[], [⟨2, 32, 0⟩, ⟨4, 1, 0⟩, ⟨5, 0xAC, 0⟩], []] := by decide
  have hrun : (source.run 9 (source.enter .frame p)).1 =
      .ok ⟨[⟨2, 32, 0⟩, ⟨4, 1, 0⟩, ⟨5, 0xAC, 0⟩], 2, .halted⟩ := by decide
  obtain ⟨hcalls, hframe⟩ := answerAll_product p hroom
  obtain ⟨-, hvoices⟩ := hcalls [.step, .step] (by decide) _ _ (Prod.ext hreports rfl)
  obtain ⟨q, v, hq, -, -⟩ := hvoices 1 (by decide)
  obtain ⟨alone, halone, hsup⟩ := hframe 9 _ _ (Prod.ext hrun rfl) rfl
  rw [hlength] at halone hsup
  have hwrites : (source.answerAll calls (p.only 1)).1 =
      .ok ([[], [⟨2, 32, 0⟩, ⟨4, 1, 0⟩, ⟨5, 0xAC, 0⟩], []].map (writesOn 1)) :=
    congrArg Prod.fst hq
  exact ⟨hroom, hreports, hwrites.trans (by decide), alone, fun c hc => (halone c hc).1, hsup.symm⟩

end Player

end Script

end Chiptune
