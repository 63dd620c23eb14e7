import Chiptune.Format.Job
import Chiptune.Proofs.Format.Song

/-!
# Jobs survive their JSON form

Three kinds of fields of a job need not be written (`Job.IsOptional`): the frame rate, the
window of its engine and the selector of any of its subsongs.  A job of which some of them are
left out is read with the defaults of just these (`Job.ofJson?_prune`), which for the window
depend on the engine (`Engine.withDefaults`).  Nothing else has to be proved of a complete job:
it is the case in which nothing is left out (`Job.withDefaults_nowhere`).

An engine is looked through as a whole before its kind is known.  Its value must pass this with
and without its window (`Engine.representable_toJson`, `Engine.depth_toJson_le`); then the kind
is set aside and the other fields are read (`Engine.ofJson?_prune_of_kind`).

For texts the same follows once the value is known to come back (`Job.reread_toJson`).  Here the
clock and the frame rate have to read back, which is assumed of them.
-/

namespace Chiptune

open Json (Step behind kept)

variable {removed : List Step → Bool}

theorem Block.ofJson?_toJson (b : Block) : Block.ofJson? b.toJson = some b := by
  rw [ofJson?, toJson, Json.fields?_object ?names ?nodup]
  case names => rfl
  case nodup => decide
  simp only [List.map_cons, List.map_nil, Json.required?_some, Json.toUInt32?_nat,
    Json.toUInt64?_nat, Json.toList?_map fun byte _ => Json.toUInt8?_nat byte,
    Option.bind_eq_bind, Option.bind_some]
  rfl

theorem Window.ofJson?_toJson (w : Window) : Window.ofJson? w.toJson = some w := by
  rw [ofJson?, toJson, Json.fields?_object ?names ?nodup]
  case names => rfl
  case nodup => decide
  simp only [List.map_cons, List.map_nil, Json.required?_some, Json.toUInt16?_nat,
    Option.bind_eq_bind, Option.bind_some]
  rfl

theorem PortMap.ofJson?_toJson (map : PortMap) : PortMap.ofJson? map.toJson = some map := by
  cases map <;> simp [ofJson?, toJson, name, Json.named?, Json.variant?, Json.isNothing, ofName?]

theorem Family.ofJson?_toJson (family : Family) : Family.ofJson? family.toJson = some family := by
  cases family <;> simp [ofJson?, toJson, name, Json.named?, Json.variant?, Json.isNothing, ofName?]

theorem Chip.ofJson?_toJson {chip : Chip} (h : chip.clock.isFinite = true) :
    Chip.ofJson? chip.toJson = some chip := by
  rw [ofJson?, toJson, Json.fields?_object ?names ?nodup]
  case names => rfl
  case nodup => decide
  simp only [List.map_cons, List.map_nil, Json.required?_some, Family.ofJson?_toJson,
    Json.toFloat?_double h, Option.bind_eq_bind, Option.bind_some]
  rfl

namespace Entry

/-- The entry without a selector, if it is removed. -/
def withDefaults (removed : List Step → Bool) (e : Entry) : Entry :=
  { e with selector := if removed [.member "selector"] then 0 else e.selector }

theorem ofJson?_prune (h : ∀ path, removed path = true → path = [.member "selector"]) (e : Entry) :
    ofJson? (e.toJson.prune removed) = some (e.withDefaults removed) := by
  have hinit : removed [.member "init"] = false := Json.eq_false_of_only h (by decide)
  have hframe : removed [.member "frame"] = false := Json.eq_false_of_only h (by decide)
  rw [ofJson?, toJson, Json.fields?_prune ?names ?nodup]
  case names => rfl
  case nodup => decide
  simp only [List.map_cons, List.map_nil, kept, hinit, hframe, Bool.false_eq_true, if_false,
    Json.required?_some, Json.prune_nat, Json.toUInt16?_nat, Json.optional?_ite, Json.toUInt8?_nat,
    ← apply_ite some, Option.bind_eq_bind, Option.bind_some]
  rfl

end Entry

namespace Engine

/-- The engine with its default window, if the window is removed. -/
def withDefaults (removed : List Step → Bool) : Engine → Engine
  | .z80 ports stack window =>
    .z80 ports stack (if removed [.member "chip_window"] then none else window)
  | .mos6502 window => .mos6502 (if removed [.member "chip_window"] then .sid else window)
  | .script => .script

theorem representable_toJson (e : Engine) : e.toJson.representable = true := by
  cases e with
  | z80 ports stack window => cases window <;> rfl
  | mos6502 window => rfl
  | script => rfl

theorem depth_toJson_le (e : Engine) : e.toJson.depth ≤ maxDepth := by
  cases e with
  | z80 ports stack window => cases window <;> exact Nat.le_of_ble_eq_true rfl
  | mos6502 window => exact Nat.le_of_ble_eq_true rfl
  | script => exact Nat.le_of_ble_eq_true rfl

theorem ofJson?_prune_of_kind {kind : String} {members : List (String × Json)} {e : Engine}
    (he : e.toJson = .object (("kind", .string kind) :: members))
    (hkind : removed [.member "kind"] = false) (hmembers : "kind" ∉ members.map Prod.fst) :
    ofJson? (e.toJson.prune removed) =
      ofFields? kind (.object (("kind", .string kind) :: Json.pruneMembers removed members)) := by
  have hpruned : e.toJson.prune removed =
      .object (("kind", .string kind) :: Json.pruneMembers removed members) := by
    rw [he, Json.prune, Json.pruneMembers, hkind]
    rfl
  have hguard : ((e.toJson.prune removed).representable &&
      decide ((e.toJson.prune removed).depth ≤ maxDepth)) = true :=
    Bool.and_eq_true_iff.mpr ⟨Json.representable_prune e.representable_toJson,
      decide_eq_true (Nat.le_trans (Json.depth_prune_le _) e.depth_toJson_le)⟩
  rw [hpruned] at hguard ⊢
  rw [ofJson?, if_pos hguard, Json.member?_cons_self (Json.notMem_pruneMembers hmembers)]

theorem ofJson?_prune (h : ∀ path, removed path = true → path = [.member "chip_window"])
    (e : Engine) : ofJson? (e.toJson.prune removed) = some (e.withDefaults removed) := by
  have hkind : removed [.member "kind"] = false := Json.eq_false_of_only h (by decide)
  have hports : removed [.member "ports"] = false := Json.eq_false_of_only h (by decide)
  have hstack : removed [.member "stack"] = false := Json.eq_false_of_only h (by decide)
  have hwindow : ∀ j : Json, j.prune (behind removed (.member "chip_window")) = j :=
    Json.prune_eq_self fun step path => Json.eq_false_of_only h (by simp)
  cases e with
  | z80 ports stack window =>
      have hbehind : ports.toJson.prune (behind removed (.member "ports")) = ports.toJson := rfl
      have hoption : Json.toOption? Window.ofJson? (Json.option Window.toJson window) =
          some window := by
        cases window with
        | none => rfl
        | some w =>
            have hread := congrArg (Option.map some) w.ofJson?_toJson
            exact hread
      rw [ofJson?_prune_of_kind rfl hkind (by simp), ofFields?, Json.fields?_cons (by simp),
        ← Json.prune, Json.fields?_prune ?names ?nodup]
      case names => rfl
      case nodup => decide
      simp only [List.map_cons, List.map_nil, kept, hports, hstack, hbehind, hwindow,
        Bool.false_eq_true, if_false, Json.required?_some, PortMap.ofJson?_toJson, Json.prune_nat,
        Json.toUInt16?_nat, Json.optional?_ite, hoption, ← apply_ite some, Option.bind_eq_bind,
        Option.bind_some]
      rfl
  | mos6502 window =>
      rw [ofJson?_prune_of_kind rfl hkind (by simp), ofFields?, Json.fields?_cons (by simp),
        ← Json.prune, Json.fields?_prune ?names ?nodup]
      case names => rfl
      case nodup => decide
      simp only [List.map_cons, List.map_nil, kept, hwindow, Json.optional?_ite,
        Window.ofJson?_toJson, ← apply_ite some, Option.map_some]
      rfl
  | script =>
      rw [ofJson?_prune_of_kind rfl hkind (by simp)]
      rfl

end Engine

namespace Job

/-- The ways to the fields that need not be written. -/
def IsOptional (path : List Step) : Prop :=
  path = [.member "frame_rate_hz"] ∨ path = [.member "engine", .member "chip_window"] ∨
    ∃ i, path = [.member "subsongs", .item i, .member "selector"]

/-- The job with the default of every field that is removed. -/
def withDefaults (removed : List Step → Bool) (job : Job) : Job :=
  { job with
    engine := job.engine.withDefaults (behind removed (.member "engine"))
    subsongs := job.subsongs.mapIdx fun i entry =>
      entry.withDefaults (behind (behind removed (.member "subsongs")) (.item i))
    frameRate := if removed [.member "frame_rate_hz"] then defaultFrameRate else job.frameRate }

theorem ofJson?_prune (h : ∀ path, removed path = true → IsOptional path) {job : Job}
    (hclock : job.chip.clock.isFinite = true) (hrate : job.frameRate.isFinite = true) :
    ofJson? (job.toJson.prune removed) = some (job.withDefaults removed) := by
  have hkept : ∀ name, name ≠ "frame_rate_hz" → removed [.member name] = false :=
    fun name hname => Json.eq_false_of_only h (by simp [IsOptional, hname])
  have hwhole : ∀ name, name ≠ "engine" → name ≠ "subsongs" →
      ∀ j : Json, j.prune (behind removed (.member name)) = j := fun name hengine hsubsongs =>
    Json.prune_eq_self fun step path =>
      Json.eq_false_of_only h (by simp [IsOptional, hengine, hsubsongs])
  have hengine : ∀ path, behind removed (.member "engine") path = true →
      path = [.member "chip_window"] := by
    intro path hpath
    simpa [IsOptional] using h _ hpath
  have hentry : ∀ i path, behind (behind removed (.member "subsongs")) (.item i) path = true →
      path = [.member "selector"] := by
    intro i path hpath
    simpa [IsOptional] using h _ hpath
  rw [ofJson?, toJson, Json.fields?_prune ?names ?nodup]
  case names => rfl
  case nodup => decide
  simp only [List.map_cons, List.map_nil, kept, hkept "memory_size" (by decide),
    hkept "blocks" (by decide), hkept "engine" (by decide), hkept "chip" (by decide),
    hkept "subsongs" (by decide), hwhole "blocks" (by decide) (by decide),
    hwhole "chip" (by decide) (by decide), Bool.false_eq_true, if_false, Json.required?_some,
    Json.prune_nat, Json.toUInt64?_nat, Json.toList?_map fun b _ => Block.ofJson?_toJson b,
    Engine.ofJson?_prune hengine, Chip.ofJson?_toJson hclock,
    Json.toList?_prune fun i e => Entry.ofJson?_prune (hentry i) e,
    Json.optional?_ite, Json.toFloat?_prune, Json.toFloat?_double hrate, ← apply_ite some,
    Option.bind_eq_bind, Option.bind_some]
  rfl

end Job

/-! ## Texts -/

theorem Block.reread_toJson (b : Block) : b.toJson.reread = b.toJson := by
  simp only [toJson, Json.reread_object, List.map_cons, List.map_nil, Json.reread_uint32,
    Json.reread_uint64, Json.reread_map fun byte _ => Json.reread_uint8 byte]

theorem Entry.reread_toJson (e : Entry) : e.toJson.reread = e.toJson := by
  simp only [toJson, Json.reread_object, List.map_cons, List.map_nil, Json.reread_uint16,
    Json.reread_uint8]

theorem Window.reread_toJson (w : Window) : w.toJson.reread = w.toJson := by
  simp only [toJson, Json.reread_object, List.map_cons, List.map_nil, Json.reread_uint16]

theorem Engine.reread_toJson (e : Engine) : e.toJson.reread = e.toJson := by
  cases e with
  | z80 ports stack window =>
      have hwindow : (Json.option Window.toJson window).reread =
          Json.option Window.toJson window := by
        cases window with
        | none => rw [Json.option, Json.reread]
        | some w => exact w.reread_toJson
      simp only [toJson, PortMap.toJson, Json.reread_object, List.map_cons, List.map_nil,
        Json.reread, Json.reread_uint16, hwindow]
  | mos6502 window =>
      simp only [toJson, Json.reread_object, List.map_cons, List.map_nil, Json.reread,
        Window.reread_toJson]
  | script => simp only [toJson, Json.reread_object, List.map_cons, List.map_nil, Json.reread]

theorem Chip.reread_toJson {chip : Chip}
    (h : (Json.double chip.clock).reread = Json.double chip.clock) :
    chip.toJson.reread = chip.toJson := by
  simp only [toJson, Family.toJson, Json.reread_object, List.map_cons, List.map_nil, Json.reread, h]

namespace Job

theorem reread_toJson {job : Job}
    (hclock : (Json.double job.chip.clock).reread = Json.double job.chip.clock)
    (hrate : (Json.double job.frameRate).reread = Json.double job.frameRate) :
    job.toJson.reread = job.toJson := by
  simp only [toJson, Json.reread_object, List.map_cons, List.map_nil, Json.reread_uint64,
    Json.reread_map fun b _ => Block.reread_toJson b, Engine.reread_toJson,
    Chip.reread_toJson hclock, Json.reread_map fun e _ => Entry.reread_toJson e, hrate]

theorem withDefaults_nowhere (job : Job) : job.withDefaults Json.nowhere = job := by
  have hengine : job.engine.withDefaults (behind Json.nowhere (.member "engine")) = job.engine := by
    cases job.engine <;> rfl
  have hentries : (job.subsongs.mapIdx fun i entry =>
      entry.withDefaults (behind (behind Json.nowhere (.member "subsongs")) (.item i))) =
        job.subsongs := by
    refine List.mapIdx_eq_iff.mpr fun i => ?_
    cases job.subsongs[i]? <;> rfl
  rw [withDefaults, hengine, hentries]
  rfl

theorem ofText?_prune (h : ∀ path, removed path = true → IsOptional path) {job : Job}
    (hclock : job.chip.clock.isFinite = true) (hrate : job.frameRate.isFinite = true)
    (hreads : Json.ReadsBack job.chip.clock ∧ Json.ReadsBack job.frameRate) {style : Json.Style}
    (hstyle : style.IsBlank) :
    ofText? ((job.toJson.prune removed).text style) = some (job.withDefaults removed) := by
  rw [ofText?, Json.parse?_text hstyle, Json.reread_prune,
    reread_toJson (hreads.1.reread_double hclock) (hreads.2.reread_double hrate)]
  exact ofJson?_prune h hclock hrate

end Job

/-- Jobs whose clock and frame rate are finite are read as they were written, and so are songs.
Of a job any of the fields that need not be written may be left out; what is read is the same
job with just these fields at their defaults.  Of texts the same is true as of values, provided
the two doubles of a job read back. -/
theorem jobs_and_songs_read_back :
    (∀ job : Job, job.chip.clock.isFinite = true → job.frameRate.isFinite = true →
      Job.ofJson? job.toJson = some job ∧
      (∀ removed : List Step → Bool, (∀ path, removed path = true → Job.IsOptional path) →
        Job.ofJson? (job.toJson.prune removed) = some (job.withDefaults removed)) ∧
      (Json.ReadsBack job.chip.clock → Json.ReadsBack job.frameRate →
        ∀ style : Json.Style, style.IsBlank →
          Job.ofText? (job.toJson.text style) = some job ∧
          ∀ removed : List Step → Bool, (∀ path, removed path = true → Job.IsOptional path) →
            Job.ofText? ((job.toJson.prune removed).text style) =
              some (job.withDefaults removed))) ∧
    ∀ song : Song, song.Fits →
      Song.ofJson? song.toJson = some song ∧
      ∀ style : Json.Style, style.IsBlank → Song.ofText? (song.toJson.text style) = some song := by
  have hnowhere : ∀ path, Json.nowhere path = true → Job.IsOptional path := nofun
  refine ⟨fun job hclock hrate => ⟨?value, ?pruned, ?text⟩, fun song hfits => ⟨?song, ?songText⟩⟩
  case value =>
    have hread := Job.ofJson?_prune hnowhere hclock hrate
    rwa [Json.prune_nowhere, Job.withDefaults_nowhere] at hread
  case pruned => exact fun removed hremoved => Job.ofJson?_prune hremoved hclock hrate
  case text =>
    intro hclock' hrate' style hstyle
    have hread := Job.ofText?_prune hnowhere hclock hrate ⟨hclock', hrate'⟩ hstyle
    rw [Json.prune_nowhere, Job.withDefaults_nowhere] at hread
    exact ⟨hread, fun removed hremoved =>
      Job.ofText?_prune hremoved hclock hrate ⟨hclock', hrate'⟩ hstyle⟩
  case song => exact Song.ofJson?_toJson hfits
  case songText => exact fun style hstyle => Song.ofText?_text hfits hstyle

/-- A job with all kinds of fields left out, one of its two selectors included, and a song with
every kind of event and the largest index. -/
theorem jobs_and_songs_read_back_partial :
    let job : Job :=
      { memorySize := 65536
        blocks := [⟨4096, 4, [0xEA, 0x60]⟩]
        engine := .mos6502 ⟨0xD000, 8⟩
        chip := ⟨.sid, 985248.0⟩
        subsongs := [⟨4096, 4097, 1⟩, ⟨4096, 4098, 2⟩]
        frameRate := 60.0 }
    let removed : List Step → Bool := fun path =>
      path = [.member "frame_rate_hz"] ∨ path = [.member "engine", .member "chip_window"] ∨
        path = [.member "subsongs", .item 1, .member "selector"]
    let song : Song := ⟨[
      { index := 0xFFFFFFFFFFFFFFFF
        channels := 2
        patterns := #[⟨#[#[some (.noteOn 60), none], #[some .noteOff]]⟩,
          ⟨#[#[], #[some (.volumeChange 15), some (.pitchChange (-20))]]⟩]
        order := #[0, 1, 0] }]⟩
    Job.ofText? (job.toJson.text .indented) = some job ∧
      Job.ofText? ((job.toJson.prune removed).text .compact) =
        some
          { job with
            engine := .mos6502 .sid
            subsongs := [⟨4096, 4097, 1⟩, ⟨4096, 4098, 0⟩]
            frameRate := 50.0 } ∧
      Song.ofText? (song.toJson.text .compact) = some song := by
  intro job removed song
  have hremoved : ∀ path, removed path = true → Job.IsOptional path := by
    intro path hpath
    obtain hrate | hwindow | hselector := of_decide_eq_true hpath
    · exact .inl hrate
    · exact .inr (.inl hwindow)
    · exact .inr (.inr ⟨1, hselector⟩)
  have hfits : song.Fits := by
    intro subsong hsubsong
    obtain rfl := List.mem_singleton.mp hsubsong
    exact ⟨by decide, by decide, by decide⟩
  obtain ⟨hjobs, hsongs⟩ := jobs_and_songs_read_back
  obtain ⟨-, -, htexts⟩ := hjobs job (by decide +kernel) (by decide +kernel)
  have htexts := htexts (by decide +kernel) (by decide +kernel)
  refine ⟨(htexts .indented Json.Style.isBlank_indented).1, ?_,
    (hsongs song hfits).2 .compact Json.Style.isBlank_compact⟩
  exact (htexts .compact Json.Style.isBlank_compact).2 removed hremoved

end Chiptune
