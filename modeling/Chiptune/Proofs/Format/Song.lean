import Chiptune.Format.Song
import Chiptune.Proofs.Json.Decoding

/-!
# Songs survive their JSON form

A song is read as it was written, first from the value (`Song.ofJson?_toJson`) and then from
its text (`Song.ofText?_text`).  There is one lemma for every level of a song.  All that has to
be assumed is that its numbers have 64 bits (`Song.Fits`).
-/

namespace Chiptune

/-! ## Values -/

theorem Event.ofJson?_toJson (e : Event) : Event.ofJson? e.toJson = some e := by
  cases e with
  | noteOff => simp [ofJson?, toJson, Json.variant?, Json.named?, Json.isNothing, ofName?]
  | noteOn note => simp [ofJson?, toJson, Json.variant?, Json.toUInt8?_nat]
  | volumeChange volume => simp [ofJson?, toJson, Json.variant?, Json.toUInt8?_nat]
  | pitchChange cents => simp [ofJson?, toJson, Json.variant?, Json.toInt16?_integer]

theorem Cell.ofJson?_toJson (cell : Cell) :
    Json.toOption? Event.ofJson? (Json.option Event.toJson cell) = some cell := by
  cases cell with
  | none => rfl
  | some e =>
      have hread := congrArg (Option.map some) (Event.ofJson?_toJson e)
      -- No event is written as null.
      cases e <;> exact hread

theorem Row.ofJson?_toJson (row : Row) : Row.ofJson? (Row.toJson row) = some row := by
  rw [Row.ofJson?, Row.toJson, Json.toList?_map fun cell _ => Cell.ofJson?_toJson cell]
  rfl

theorem Pattern.ofJson?_toJson (p : Pattern) : Pattern.ofJson? p.toJson = some p := by
  rw [Pattern.ofJson?, Pattern.toJson, Json.fields?_object ?names ?nodup]
  case names => rfl
  case nodup => decide
  simp only [List.map_cons, List.map_nil, Json.required?_some,
    Json.toList?_map fun row _ => Row.ofJson?_toJson row, Option.bind_eq_bind, Option.bind_some]
  rfl

/-- All indices have 64 bits. -/
structure Subsong.Fits (s : Subsong) : Prop where
  index : s.index < UInt64.size
  channels : s.channels < UInt64.size
  order : ∀ i ∈ s.order.toList, i < UInt64.size

def Song.Fits (s : Song) : Prop :=
  ∀ subsong ∈ s.subsongs, subsong.Fits

theorem Subsong.ofJson?_toJson {s : Subsong} (h : s.Fits) : Subsong.ofJson? s.toJson = some s := by
  rw [Subsong.ofJson?, Subsong.toJson, Json.fields?_object ?names ?nodup]
  case names => rfl
  case nodup => decide
  simp only [List.map_cons, List.map_nil, Json.required?_some, Json.toNat?_nat h.index,
    Json.toNat?_nat h.channels, Json.toList?_map fun p _ => Pattern.ofJson?_toJson p,
    Json.toList?_map fun i hi => Json.toNat?_nat (h.order i hi), Option.bind_eq_bind,
    Option.bind_some]
  rfl

theorem Song.ofJson?_toJson {s : Song} (h : s.Fits) : Song.ofJson? s.toJson = some s := by
  rw [Song.ofJson?, Song.toJson, Json.fields?_object ?names ?nodup]
  case names => rfl
  case nodup => decide
  simp only [List.map_cons, List.map_nil, Json.required?_some,
    Json.toList?_map fun subsong hsubsong => Subsong.ofJson?_toJson (h subsong hsubsong),
    Option.bind_eq_bind, Option.bind_some]
  rfl

/-! ## Texts -/

theorem Event.reread_toJson (e : Event) : e.toJson.reread = e.toJson := by
  cases e with
  | noteOff => rw [toJson, Json.reread]
  | noteOn note =>
      simp only [toJson, Json.reread_object, List.map_cons, List.map_nil, Json.reread_uint8]
  | volumeChange volume =>
      simp only [toJson, Json.reread_object, List.map_cons, List.map_nil, Json.reread_uint8]
  | pitchChange cents =>
      have hcents : (Json.integer cents.toInt).reread = .integer cents.toInt :=
        Json.reread_integer (Int.le_trans (by decide) cents.minValue_le_toInt)
          (Int.lt_of_le_of_lt cents.toInt_le (by decide))
      simp only [toJson, Json.reread_object, List.map_cons, List.map_nil, hcents]

theorem Row.reread_toJson (row : Row) : (Row.toJson row).reread = Row.toJson row := by
  refine Json.reread_map fun cell _ => ?_
  cases cell with
  | none => rw [Json.option, Json.reread]
  | some e => exact e.reread_toJson

theorem Pattern.reread_toJson (p : Pattern) : p.toJson.reread = p.toJson := by
  simp only [toJson, Json.reread_object, List.map_cons, List.map_nil,
    Json.reread_map fun row _ => Row.reread_toJson row]

theorem Subsong.reread_toJson {s : Subsong} (h : s.Fits) : s.toJson.reread = s.toJson := by
  simp only [toJson, Json.reread_object, List.map_cons, List.map_nil, Json.reread_nat h.index,
    Json.reread_nat h.channels, Json.reread_map fun p _ => Pattern.reread_toJson p,
    Json.reread_map fun i hi => Json.reread_nat (h.order i hi)]

theorem Song.reread_toJson {s : Song} (h : s.Fits) : s.toJson.reread = s.toJson := by
  simp only [toJson, Json.reread_object, List.map_cons, List.map_nil,
    Json.reread_map fun subsong hsubsong => Subsong.reread_toJson (h subsong hsubsong)]

/-- A song is read from its text as it was written. -/
theorem Song.ofText?_text {s : Song} (h : s.Fits) {style : Json.Style} (hstyle : style.IsBlank) :
    Song.ofText? (s.toJson.text style) = some s := by
  rw [Song.ofText?, Json.parse?_text hstyle, Song.reread_toJson h]
  exact Song.ofJson?_toJson h

end Chiptune
