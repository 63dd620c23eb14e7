import Chiptune.Format.Config
import Chiptune.Proofs.Json.Decoding

/-!
# Settings survive their text

Settings are written as a text and read again, and any of their members may be left out of it.
What is read in the end is said for the value behind the text (`Config.ofJson?_reread`): the
settings with the defaults of all fields that are missing (`Config.withDefaults`), where only
the reference may have changed, since it is a double.  The text adds validation to this, and
nothing else (`Config.ofText_text`).
-/

namespace Chiptune

open Json (behind kept)

variable (removed : List Json.Step → Bool)

namespace Tuning

/-- The tuning with the default of every field that is removed. -/
def withDefaults (t : Tuning) : Tuning :=
  let standard : Tuning := {}
  { referenceHz := if removed [.member "reference_hz"] then standard.referenceHz else t.referenceHz
    referenceNote :=
      if removed [.member "reference_note"] then standard.referenceNote else t.referenceNote
    lowest := if removed [.member "min_note"] then standard.lowest else t.lowest
    highest := if removed [.member "max_note"] then standard.highest else t.highest }

/-- The tuning that is read when its reference was written as some value. -/
def withReference (hz : Json) (t : Tuning) : Option Tuning :=
  hz.toFloat?.map fun referenceHz => { t with referenceHz }

theorem toFloat?_standard :
    (Json.double ({} : Tuning).referenceHz).reread.toFloat? = some ({} : Tuning).referenceHz := by
  have hreads : Json.ReadsBack ({} : Tuning).referenceHz := by decide +kernel
  have hfinite : ({} : Tuning).referenceHz.isFinite = true := by decide +kernel
  rw [hreads.reread_double hfinite, Json.toFloat?_double hfinite]

theorem reread_toJson (t : Tuning) :
    t.toJson.reread = .object [("reference_hz", (Json.double t.referenceHz).reread),
      ("reference_note", .nat t.referenceNote.toNat), ("min_note", .nat t.lowest.toNat),
      ("max_note", .nat t.highest.toNat)] := by
  simp only [toJson, Json.reread_object, List.map_cons, List.map_nil, Json.reread_uint8]

theorem ofJson?_reread (t : Tuning) :
    ofJson? (t.toJson.reread.prune removed) =
      withReference (Json.double (t.withDefaults removed).referenceHz).reread
        (t.withDefaults removed) := by
  have hreference : (if removed [.member "reference_hz"] then some ({} : Tuning).referenceHz
      else (Json.double t.referenceHz).reread.toFloat?) =
        (Json.double (t.withDefaults removed).referenceHz).reread.toFloat? := by
    unfold withDefaults
    dsimp only
    split
    · exact toFloat?_standard.symm
    · rfl
  rw [reread_toJson, ofJson?, Json.fields?_prune ?names ?nodup]
  case names => rfl
  case nodup => decide
  simp only [List.map_cons, List.map_nil, kept, Json.optional?_ite, Json.prune_nat,
    Json.toFloat?_prune, Json.toUInt8?_nat, ← apply_ite some, Option.bind_eq_bind,
    Option.bind_some, hreference]
  exact (Option.map_eq_bind ..).symm

end Tuning

namespace Config

/-- The settings with the default of every field that is removed, those of the tuning
included. -/
def withDefaults (c : Config) : Config :=
  let standard : Config := {}
  { frameCount := if removed [.member "frame_count"] then standard.frameCount else c.frameCount
    blockLength :=
      if removed [.member "frames_per_block"] then standard.blockLength else c.blockLength
    initBudget := if removed [.member "init_step_budget"] then standard.initBudget else c.initBudget
    frameBudget :=
      if removed [.member "frame_step_budget"] then standard.frameBudget else c.frameBudget
    tuning :=
      if removed [.member "pitch"] then standard.tuning
      else c.tuning.withDefaults (behind removed (.member "pitch"))
    parallel := if removed [.member "parallel"] then standard.parallel else c.parallel }

theorem withDefaults_nowhere (c : Config) : c.withDefaults Json.nowhere = c :=
  rfl

theorem reread_toJson (c : Config) :
    c.toJson.reread = .object [("frame_count", .nat c.frameCount.toNat),
      ("frames_per_block", .nat c.blockLength.toNat),
      ("init_step_budget", .nat c.initBudget.toNat),
      ("frame_step_budget", .nat c.frameBudget.toNat), ("pitch", c.tuning.toJson.reread),
      ("parallel", .bool c.parallel)] := by
  simp only [toJson, Json.reread_object, List.map_cons, List.map_nil, Json.reread_uint64,
    Json.reread]

/-- Only the reference may be read as another one than was written. -/
theorem ofJson?_reread (c : Config) :
    ofJson? (c.toJson.reread.prune removed) =
      (Tuning.withReference (Json.double (c.withDefaults removed).tuning.referenceHz).reread
        (c.withDefaults removed).tuning).map fun tuning =>
          { c.withDefaults removed with tuning } := by
  have htuning : (if removed [.member "pitch"] then some ({} : Config).tuning
      else Tuning.ofJson? (c.tuning.toJson.reread.prune (behind removed (.member "pitch")))) =
        Tuning.withReference (Json.double (c.withDefaults removed).tuning.referenceHz).reread
          (c.withDefaults removed).tuning := by
    unfold withDefaults
    dsimp only
    split
    · rw [Tuning.withReference, Tuning.toFloat?_standard]
      rfl
    · exact Tuning.ofJson?_reread _ c.tuning
  have hparallel : ∀ removed, Json.toBool? ((Json.bool c.parallel).prune removed) =
      some c.parallel := fun _ => rfl
  rw [reread_toJson, ofJson?, Json.fields?_prune ?names ?nodup]
  case names => rfl
  case nodup => decide
  simp only [List.map_cons, List.map_nil, kept, Json.optional?_ite, Json.prune_nat,
    Json.toUInt64?_nat, hparallel, ← apply_ite some, Option.bind_eq_bind, Option.bind_some,
    htuning]
  exact (Option.map_eq_bind ..).symm

theorem validate_of_ofText {text : String} {c : Config} (h : ofText text = .ok c) :
    c.validate = .ok () := by
  unfold ofText at h
  split at h
  case h_1 => cases h
  case h_2 config _ =>
    split at h
    case h_1 => cases h
    case h_2 hvalid =>
      cases h
      exact hvalid

theorem parse?_prune {style : Json.Style} (hstyle : style.IsBlank) (c : Config) :
    (Json.parse? ((c.toJson.prune removed).text style)).bind ofJson? =
      (Json.parse? (c.withDefaults removed).text).bind ofJson? := by
  have htext : (c.withDefaults removed).text = (c.withDefaults removed).toJson.text .indented := rfl
  have hdefaults := ofJson?_reread Json.nowhere (c.withDefaults removed)
  rw [withDefaults_nowhere, Json.prune_nowhere] at hdefaults
  rw [htext, Json.parse?_text hstyle, Json.parse?_text Json.Style.isBlank_indented,
    Json.reread_prune, Option.bind_some, Option.bind_some, ofJson?_reread, hdefaults]

theorem parse?_of_readsBack {c : Config} (hfinite : c.tuning.referenceHz.isFinite = true)
    (hreads : Json.ReadsBack c.tuning.referenceHz) :
    (Json.parse? c.text).bind ofJson? = some c := by
  have htext : c.text = c.toJson.text .indented := rfl
  have hread := ofJson?_reread Json.nowhere c
  rw [withDefaults_nowhere, Json.prune_nowhere, hreads.reread_double hfinite,
    Tuning.withReference, Json.toFloat?_double hfinite] at hread
  rw [htext, Json.parse?_text Json.Style.isBlank_indented, Option.bind_some, hread]
  rfl

/-- Settings are read from their text as they were written, provided the reference reads back,
and are then refused for just the reason for which they are invalid.  No text gives settings
that are invalid.  In whatever style the settings are written, and whichever members are taken
away, those of the tuning included, what is read is what would be read if just these fields had
their defaults. -/
theorem ofText_text :
    (∀ c : Config, c.tuning.referenceHz.isFinite = true → Json.ReadsBack c.tuning.referenceHz →
      ofText c.text =
        match c.validate with
        | .ok () => .ok c
        | .error e => .error (.invalid e)) ∧
    (∀ text c, ofText text = .ok c → c.validate = .ok ()) ∧
    ∀ (c : Config) (removed : List Json.Step → Bool) (style : Json.Style), style.IsBlank →
      ofText ((c.toJson.prune removed).text style) = ofText (c.withDefaults removed).text := by
  refine ⟨?back, fun text c h => validate_of_ofText h, ?missing⟩
  case back =>
    intro c hfinite hreads
    rw [ofText, parse?_of_readsBack hfinite hreads]
    dsimp only
    cases c.validate <;> rfl
  case missing =>
    intro c removed style hstyle
    rw [ofText, ofText, parse?_prune removed hstyle]

/-- The largest count of frames, a reference other than the default one, and two fields left
out. -/
theorem ofText_text_partial :
    let c : Config :=
      { frameCount := 0xFFFFFFFFFFFFFFFF
        tuning := { referenceHz := 442.5, lowest := 12 }
        parallel := false }
    let removed : List Json.Step → Bool := fun path =>
      path = [.member "parallel"] ∨ path = [.member "pitch", .member "min_note"]
    let partly : Config := { c with tuning := { referenceHz := 442.5 }, parallel := true }
    ofText c.text = .ok c ∧ c.validate = .ok () ∧
      ofText ((c.toJson.prune removed).text .compact) = .ok partly := by
  intro c removed partly
  obtain ⟨hback, hvalid, hmissing⟩ := ofText_text
  have hreads : Json.ReadsBack 442.5 := by decide +kernel
  have hc : ofText c.text = .ok c := by
    have hvalidate : c.validate = .ok () := by decide +kernel
    rw [hback c (by decide +kernel) hreads, hvalidate]
  have hpartly : ofText partly.text = .ok partly := by
    have hvalidate : partly.validate = .ok () := by decide +kernel
    rw [hback partly (by decide +kernel) hreads, hvalidate]
  refine ⟨hc, hvalid c.text c hc, ?_⟩
  rw [hmissing c removed .compact Json.Style.isBlank_compact]
  exact hpartly

end Config

end Chiptune
