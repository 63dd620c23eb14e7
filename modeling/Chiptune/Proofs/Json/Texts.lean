import Chiptune.Proofs.Json.Numbers
import Chiptune.Proofs.Json.Strings

/-!
# JSON text is read as it was written

Whatever value is written, in whatever style, the reader understands all of the text
(`ofChars?_render`).  What it understands is `Json.reread`: the same value, but for numbers
that are written otherwise than they are read.

Integers of 64 bits come back as they were.  Of doubles this cannot be said in general, since
the reader does not always round to nearest; a double that does come back is said to read
back (`Json.ReadsBack`).
-/

namespace Chiptune.Json

/-- A value has a property if it follows from that of its parts. -/
@[elab_as_elim]
theorem induct {motive : Json → Prop} (null : motive .null) (bool : ∀ b, motive (.bool b))
    (integer : ∀ n, motive (.integer n)) (real : ∀ x, motive (.real x))
    (string : ∀ s, motive (.string s))
    (array : ∀ items, (∀ item ∈ items, motive item) → motive (.array items))
    (object : ∀ members, (∀ member ∈ members, motive member.2) → motive (.object members))
    (unrepresentable : motive .unrepresentable) (j : Json) : motive j :=
  @Json.rec motive (fun items => ∀ item ∈ items, motive item)
    (fun members => ∀ member ∈ members, motive member.2) (fun member => motive member.2)
    null bool integer real string array object unrepresentable
    nofun (fun _ _ hitem hrest => List.forall_mem_cons.mpr ⟨hitem, hrest⟩)
    nofun (fun _ _ hmember hrest => List.forall_mem_cons.mpr ⟨hmember, hrest⟩)
    (fun _ _ hvalue => hvalue) j

/-! ## What comes back -/

mutual

/-- What is read where a value was written. -/
def reread : Json → Json
  | .null => .null
  | .bool b => .bool b
  | .integer n => (ofChars? (integerText n)).getD .null
  | .real x => (ofChars? (numbers.render x)).getD .null
  | .string s => .string s
  | .array items => .array (rereadItems items)
  | .object members => .object (rereadMembers members)
  | .unrepresentable => .null

def rereadItems : List Json → List Json
  | [] => []
  | item :: rest => item.reread :: rereadItems rest

def rereadMembers : List (String × Json) → List (String × Json)
  | [] => []
  | (name, value) :: rest => (name, value.reread) :: rereadMembers rest

end

theorem rereadItems_eq_map (items : List Json) : rereadItems items = items.map reread := by
  induction items with
  | nil => rfl
  | cons item rest ih => rw [rereadItems, ih, List.map_cons]

theorem rereadMembers_eq_map (members : List (String × Json)) :
    rereadMembers members = members.map fun member => (member.1, member.2.reread) := by
  induction members with
  | nil => rfl
  | cons member rest ih => rw [rereadMembers, ih, List.map_cons]

/-! ## Blanks -/

/-- A style that adds nothing but blanks. -/
structure Style.IsBlank (style : Style) : Prop where
  lineStart : ∀ depth, ∀ c ∈ style.lineStart depth, isBlank c = true
  colon : ∃ before behind, style.colon = before ++ ':' :: behind ∧
    (∀ c ∈ before, isBlank c = true) ∧ ∀ c ∈ behind, isBlank c = true

theorem Style.isBlank_compact : Style.compact.IsBlank :=
  ⟨nofun, [], [], rfl, nofun, nofun⟩

theorem Style.isBlank_indented : Style.indented.IsBlank where
  lineStart depth := by
    have hspaces : ∀ c ∈ List.replicate (2 * depth) ' ', isBlank c = true := by
      intro c hc
      rw [List.eq_of_mem_replicate hc]
      rfl
    exact List.forall_mem_cons.mpr ⟨rfl, hspaces⟩
  colon := ⟨[], [' '], rfl, nofun, List.forall_mem_singleton.mpr rfl⟩

theorem skipBlanks_append {blanks : List Char} (h : ∀ c ∈ blanks, isBlank c = true)
    (cs : List Char) : skipBlanks (blanks ++ cs) = skipBlanks cs := by
  induction blanks with
  | nil => rfl
  | cons c rest ih =>
      obtain ⟨hc, hrest⟩ := List.forall_mem_cons.mp h
      rw [List.cons_append, skipBlanks, if_pos hc, ih hrest]

theorem skipBlanks_cons {c : Char} (h : isBlank c = false) (cs : List Char) :
    skipBlanks (c :: cs) = c :: cs := by
  rw [skipBlanks, h]
  rfl

/-- The colon of a style is found in front of blanks. -/
theorem Style.IsBlank.exists_skipBlanks_colon {style : Style} (h : style.IsBlank) :
    ∃ behind, (∀ c ∈ behind, isBlank c = true) ∧
      ∀ cs, skipBlanks (style.colon ++ cs) = ':' :: (behind ++ cs) := by
  obtain ⟨before, behind, hcolon, hbefore, hbehind⟩ := h.colon
  refine ⟨behind, hbehind, fun cs => ?_⟩
  rw [hcolon, List.append_assoc, skipBlanks_append hbefore, List.cons_append, skipBlanks_cons rfl]

theorem isBlank_iff {c : Char} :
    isBlank c = true ↔ c = ' ' ∨ c = '\t' ∨ c = '\n' ∨ c = '\r' := by
  simp [isBlank, or_assoc]

theorem isBlank_of_isDigit {c : Char} (h : c.isDigit = true) : isBlank c = false := by
  refine Bool.eq_false_iff.mpr fun hblank => ?_
  obtain rfl | rfl | rfl | rfl := isBlank_iff.mp hblank
  all_goals exact absurd h (by decide)

theorem avoids_blanks_append {blanks cs : List Char} (h : ∀ c ∈ blanks, isBlank c = true)
    (hcs : Avoids Continues cs) : Avoids Continues (blanks ++ cs) := by
  cases blanks with
  | nil => exact hcs
  | cons c rest =>
      have hc := (List.forall_mem_cons.mp h).1
      refine avoids_cons.mpr ?_
      rintro (hdigit | rfl | rfl | rfl)
      · rw [isBlank_of_isDigit hdigit] at hc
        cases hc
      all_goals exact absurd hc (by decide)

theorem readValue?_blanks {blanks : List Char} (h : ∀ c ∈ blanks, isBlank c = true) (fuel : ℕ)
    (cs : List Char) : readValue? fuel (blanks ++ cs) = readValue? fuel cs := by
  cases fuel with
  | zero => rfl
  | succ fuel => simp only [readValue?, skipBlanks_append h]

/-! ## Scalars -/

theorem readValue?_numeral (t : NumeralText) (fuel : ℕ) {rest : List Char}
    (hrest : Avoids Continues rest) :
    readValue? (fuel + 1) (t.chars ++ rest) = some (ofNumeral t.numeral, rest) := by
  obtain ⟨c, cs, hchars, hc⟩ := t.exists_eq_cons
  have hread := t.readNumeral?_append hrest
  have hblank : isBlank c = false := by
    obtain rfl | hdigit := hc
    · rfl
    · exact isBlank_of_isDigit hdigit
  rw [hchars, List.cons_append] at hread ⊢
  rw [readValue?, skipBlanks_cons hblank]
  -- No other value begins with a sign or a digit.
  split
  case h_7 =>
    rw [hread]
    rfl
  all_goals
    rename_i heq
    rw [(List.cons.inj heq).1] at hc
    exact absurd hc (by decide)

theorem ofChars?_numeral (t : NumeralText) : ofChars? t.chars = some (ofNumeral t.numeral) := by
  have hread := readValue?_numeral t (2 * t.chars.length + 1) avoids_nil
  rw [List.append_nil] at hread
  rw [ofChars?, hread]
  rfl

theorem reread_integer {n : Int} (hlow : Int64.minValue.toInt ≤ n) (hhigh : n < UInt64.size) :
    reread (.integer n) = .integer n := by
  rw [reread, ← NumeralText.chars_ofInt, ofChars?_numeral, NumeralText.ofNumeral_ofInt hlow hhigh]
  rfl

/-- The text of a value does not begin with a blank, nor with a closing bracket. -/
theorem exists_render_eq_cons (style : Style) (depth : ℕ) (j : Json) :
    ∃ c cs, render style depth j = c :: cs ∧ isBlank c = false ∧ c ≠ ']' := by
  have hnumeral : ∀ t : NumeralText, ∃ c cs, t.chars = c :: cs ∧ isBlank c = false ∧ c ≠ ']' := by
    intro t
    obtain ⟨c, cs, hchars, hc⟩ := t.exists_eq_cons
    refine ⟨c, cs, hchars, ?_⟩
    obtain rfl | hdigit := hc
    · exact ⟨rfl, by decide⟩
    · refine ⟨isBlank_of_isDigit hdigit, ?_⟩
      rintro rfl
      exact absurd hdigit (by decide)
  cases j with
  | integer n =>
      rw [render, ← NumeralText.chars_ofInt]
      exact hnumeral (.ofInt n)
  | real x =>
      rw [render]
      obtain hnull | ⟨t, ht⟩ := numbers_render x
      · exact ⟨_, _, hnull, rfl, by decide⟩
      · rw [ht]
        exact hnumeral t
  | bool b => cases b <;> exact ⟨_, _, rfl, rfl, by decide⟩
  | array items => cases items <;> exact ⟨_, _, rfl, rfl, by decide⟩
  | object members => cases members <;> exact ⟨_, _, rfl, rfl, by decide⟩
  | _ => exact ⟨_, _, rfl, rfl, by decide⟩

/-! ## Arrays and objects -/

/-- The reader takes the whole text of a value and nothing of what follows it. -/
def Rereads (style : Style) (j : Json) : Prop :=
  ∀ depth fuel rest, 2 * (render style depth j).length ≤ fuel → Avoids Continues rest →
    readValue? fuel (render style depth j ++ rest) = some (j.reread, rest)

variable {style : Style}

theorem avoids_closing (hstyle : style.IsBlank) (closing : ℕ) {c : Char} (hc : ¬ Continues c)
    (rest : List Char) : Avoids Continues (style.lineStart closing ++ c :: rest) :=
  avoids_blanks_append (hstyle.lineStart closing) (avoids_cons.mpr hc)

theorem skipBlanks_closing (hstyle : style.IsBlank) (closing : ℕ) {c : Char}
    (hc : isBlank c = false) (rest : List Char) :
    skipBlanks (style.lineStart closing ++ c :: rest) = c :: rest := by
  rw [skipBlanks_append (hstyle.lineStart closing), skipBlanks_cons hc]

theorem readItems?_blanks {blanks : List Char} (h : ∀ c ∈ blanks, isBlank c = true) (fuel : ℕ)
    (done : List Json) (cs : List Char) :
    readItems? fuel done (blanks ++ cs) = readItems? fuel done cs := by
  cases fuel with
  | zero => rfl
  | succ fuel => rw [readItems?, readItems?, readValue?_blanks h]

theorem readMembers?_blanks {blanks : List Char} (h : ∀ c ∈ blanks, isBlank c = true) (fuel : ℕ)
    (done : Option (List (String × Json))) (cs : List Char) :
    readMembers? fuel done (blanks ++ cs) = readMembers? fuel done cs := by
  cases fuel with
  | zero => rfl
  | succ fuel => rw [readMembers?, readMembers?, skipBlanks_append h]

section

variable {depth : ℕ} {item : Json} (hitem : Rereads style item) {fuel : ℕ}
  (hfuel : 2 * (render style depth item).length ≤ fuel) {rest more : List Char}
  (hrest : Avoids Continues rest)

include hitem hfuel hrest

theorem readItems?_of_comma (done : List Json) (hskip : skipBlanks rest = ',' :: more) :
    readItems? (fuel + 1) done (render style depth item ++ rest) =
      readItems? fuel (item.reread :: done) more := by
  simp only [readItems?, hitem depth fuel rest hfuel hrest, hskip]

theorem readItems?_of_closing (done : List Json) (hskip : skipBlanks rest = ']' :: more) :
    readItems? (fuel + 1) done (render style depth item ++ rest) =
      some (.array (item.reread :: done).reverse, more) := by
  simp only [readItems?, hitem depth fuel rest hfuel hrest, hskip]

end

theorem readItems?_render (hstyle : style.IsBlank) (depth closing : ℕ) (rest : List Char)
    {item : Json} {items : List Json} (h : ∀ j ∈ item :: items, Rereads style j)
    (done : List Json) {fuel : ℕ}
    (hfuel : 2 * (render style depth item ++ renderItems style depth items).length < fuel) :
    readItems? fuel done (render style depth item ++
        (renderItems style depth items ++ (style.lineStart closing ++ ']' :: rest))) =
      some (.array (done.reverse ++ (item :: items).map reread), rest) := by
  induction items generalizing item done fuel with
  | nil =>
      obtain ⟨fuel, rfl⟩ := Nat.exists_eq_succ_of_ne_zero (Nat.ne_zero_of_lt hfuel)
      have hlength : 2 * (render style depth item).length ≤ fuel := by
        simpa [renderItems] using Nat.le_of_lt_succ hfuel
      rw [renderItems, List.nil_append, readItems?_of_closing (h item List.mem_cons_self) hlength
        (avoids_closing hstyle closing (by decide) rest) done
        (skipBlanks_closing hstyle closing rfl rest)]
      simp
  | cons next items ih =>
      obtain ⟨hitem, hitems⟩ := List.forall_mem_cons.mp h
      obtain ⟨fuel, rfl⟩ := Nat.exists_eq_succ_of_ne_zero (Nat.ne_zero_of_lt hfuel)
      rw [renderItems] at hfuel ⊢
      simp only [List.length_append, List.length_cons] at hfuel
      have hlength : 2 * (render style depth next ++ renderItems style depth items).length <
          fuel := by
        rw [List.length_append]
        omega
      rw [List.cons_append, readItems?_of_comma hitem (by omega) (avoids_cons.mpr (by decide)) done
        (skipBlanks_cons rfl _)]
      simp only [List.append_assoc, readItems?_blanks (hstyle.lineStart depth),
        ih hitems (item.reread :: done) hlength]
      simp

section

variable (hstyle : style.IsBlank) {depth : ℕ} {value : Json} (hvalue : Rereads style value)
  {fuel : ℕ} (hfuel : 2 * (render style depth value).length ≤ fuel) {rest more : List Char}
  (hrest : Avoids Continues rest)

include hstyle hvalue hfuel hrest

theorem readMembers?_of_comma (name : String) (done : List (String × Json))
    (hskip : skipBlanks rest = ',' :: more) :
    readMembers? (fuel + 1) (some done)
        (quoted name ++ (style.colon ++ (render style depth value ++ rest))) =
      readMembers? fuel (some ((name, value.reread) :: done)) more := by
  obtain ⟨behind, hbehind, hcolon⟩ := hstyle.exists_skipBlanks_colon
  rw [readMembers?, quoted, List.cons_append, skipBlanks_cons rfl]
  simp only [List.append_assoc, List.cons_append, List.nil_append, readString?_escape, hcolon,
    readValue?_blanks hbehind, hvalue depth fuel rest hfuel hrest, hskip, addMember]

theorem readMembers?_of_closing (name : String) (done : List (String × Json))
    (hskip : skipBlanks rest = '\x7d' :: more) :
    readMembers? (fuel + 1) (some done)
        (quoted name ++ (style.colon ++ (render style depth value ++ rest))) =
      some (.object ((name, value.reread) :: done).reverse, more) := by
  obtain ⟨behind, hbehind, hcolon⟩ := hstyle.exists_skipBlanks_colon
  rw [readMembers?, quoted, List.cons_append, skipBlanks_cons rfl]
  simp only [List.append_assoc, List.cons_append, List.nil_append, readString?_escape, hcolon,
    readValue?_blanks hbehind, hvalue depth fuel rest hfuel hrest, hskip, addMember, ofMembers]

end

theorem readMembers?_render (hstyle : style.IsBlank) (depth closing : ℕ) (rest : List Char)
    {name : String} {value : Json} {members : List (String × Json)}
    (h : ∀ member ∈ (name, value) :: members, Rereads style member.2)
    (done : List (String × Json)) {fuel : ℕ}
    (hfuel : 2 * (render style depth value ++ renderMembers style depth members).length < fuel) :
    readMembers? fuel (some done) (quoted name ++ (style.colon ++
        (render style depth value ++ (renderMembers style depth members ++
          (style.lineStart closing ++ '\x7d' :: rest))))) =
      some (.object (done.reverse ++
        ((name, value) :: members).map fun member => (member.1, member.2.reread)), rest) := by
  induction members generalizing name value done fuel with
  | nil =>
      obtain ⟨fuel, rfl⟩ := Nat.exists_eq_succ_of_ne_zero (Nat.ne_zero_of_lt hfuel)
      have hlength : 2 * (render style depth value).length ≤ fuel := by
        simpa [renderMembers] using Nat.le_of_lt_succ hfuel
      rw [renderMembers, List.nil_append, readMembers?_of_closing hstyle
        (h (name, value) List.mem_cons_self) hlength
        (avoids_closing hstyle closing (by decide) rest) name done
        (skipBlanks_closing hstyle closing rfl rest)]
      simp
  | cons next members ih =>
      have hvalue : Rereads style value := h (name, value) List.mem_cons_self
      obtain ⟨fuel, rfl⟩ := Nat.exists_eq_succ_of_ne_zero (Nat.ne_zero_of_lt hfuel)
      rw [renderMembers] at hfuel ⊢
      simp only [List.length_append, List.length_cons] at hfuel
      have hlength : 2 * (render style depth next.2 ++ renderMembers style depth members).length <
          fuel := by
        rw [List.length_append]
        omega
      rw [List.cons_append, readMembers?_of_comma hstyle hvalue (by omega)
        (avoids_cons.mpr (by decide)) name done (skipBlanks_cons rfl _)]
      simp only [List.append_assoc, readMembers?_blanks (hstyle.lineStart depth),
        ih (List.forall_mem_cons.mp h).2 ((name, value.reread) :: done) hlength]
      simp

/-! ## Texts -/

/-- No value is written without a character, so there is always fuel for a step. -/
theorem rereads_of_succ {j : Json}
    (h : ∀ depth fuel rest, 2 * (render style depth j).length ≤ fuel + 1 →
      Avoids Continues rest →
        readValue? (fuel + 1) (render style depth j ++ rest) = some (j.reread, rest)) :
    Rereads style j := by
  intro depth fuel rest hfuel hrest
  obtain ⟨c, cs, hrender, -⟩ := exists_render_eq_cons style depth j
  have hpos : fuel ≠ 0 := by
    rw [hrender, List.length_cons] at hfuel
    omega
  obtain ⟨fuel, rfl⟩ := Nat.exists_eq_succ_of_ne_zero hpos
  exact h depth fuel rest hfuel hrest

theorem rereads_array (hstyle : style.IsBlank) {items : List Json}
    (ih : ∀ item ∈ items, Rereads style item) : Rereads style (.array items) := by
  refine rereads_of_succ fun depth fuel rest hfuel hrest => ?_
  cases items with
  | nil => rfl
  | cons item items =>
      obtain ⟨c, cs, hrender, hblank, hclosing⟩ := exists_render_eq_cons style (depth + 1) item
      rw [render] at hfuel ⊢
      simp only [List.length_cons, List.length_append] at hfuel
      have hlength : 2 * (render style (depth + 1) item ++
          renderItems style (depth + 1) items).length < fuel := by
        rw [List.length_append]
        omega
      have hitems := readItems?_render hstyle (depth + 1) depth rest ih [] hlength
      rw [hrender] at hitems
      rw [List.cons_append, readValue?, skipBlanks_cons rfl]
      simp only [List.append_assoc, skipBlanks_append (hstyle.lineStart (depth + 1)), hrender,
        List.cons_append, skipBlanks_cons hblank]
      split
      case h_1 heq => exact absurd (List.cons.inj heq).1 hclosing
      case h_2 =>
        rw [reread, rereadItems_eq_map]
        exact hitems

theorem rereads_object (hstyle : style.IsBlank) {members : List (String × Json)}
    (ih : ∀ member ∈ members, Rereads style member.2) : Rereads style (.object members) := by
  refine rereads_of_succ fun depth fuel rest hfuel hrest => ?_
  cases members with
  | nil => rfl
  | cons member members =>
      rw [render] at hfuel ⊢
      simp only [List.length_cons, List.length_append] at hfuel
      have hlength : 2 * (render style (depth + 1) member.2 ++
          renderMembers style (depth + 1) members).length < fuel := by
        rw [List.length_append]
        omega
      have hmembers := readMembers?_render hstyle (depth + 1) depth rest ih [] hlength
      rw [quoted, List.cons_append] at hmembers
      rw [List.cons_append, readValue?, skipBlanks_cons rfl]
      simp only [List.append_assoc, skipBlanks_append (hstyle.lineStart (depth + 1)), quoted,
        List.cons_append] at hmembers ⊢
      rw [skipBlanks_cons rfl, reread, rereadMembers_eq_map]
      exact hmembers

/-- Every value is understood as far as its text goes. -/
theorem rereads (hstyle : style.IsBlank) (j : Json) : Rereads style j := by
  induction j using induct with
  | null => exact rereads_of_succ fun _ _ _ _ _ => rfl
  | bool b => cases b <;> exact rereads_of_succ fun _ _ _ _ _ => rfl
  | integer n =>
      refine rereads_of_succ fun depth fuel rest _ hrest => ?_
      rw [render, reread, ← NumeralText.chars_ofInt, ofChars?_numeral,
        readValue?_numeral _ fuel hrest]
      rfl
  | real x =>
      refine rereads_of_succ fun depth fuel rest _ hrest => ?_
      rw [render, reread]
      obtain hnull | ⟨t, ht⟩ := numbers_render x
      · rw [hnull]
        rfl
      · rw [ht, ofChars?_numeral, readValue?_numeral _ fuel hrest]
        rfl
  | string s =>
      refine rereads_of_succ fun depth fuel rest _ _ => ?_
      rw [render, reread, quoted, List.cons_append, readValue?, skipBlanks_cons rfl]
      simp only [List.append_assoc, List.singleton_append, readString?_escape]
      rfl
  | array items ih => exact rereads_array hstyle ih
  | object members ih => exact rereads_object hstyle ih
  | unrepresentable => exact rereads_of_succ fun _ _ _ _ _ => rfl

/-- The reader understands all that is written in a style that adds only blanks. -/
theorem ofChars?_render (hstyle : style.IsBlank) (j : Json) :
    ofChars? (render style 0 j) = some j.reread := by
  have hread := rereads hstyle j 0 (2 * (render style 0 j).length + 2) [] (Nat.le_add_right _ _)
    avoids_nil
  rw [List.append_nil] at hread
  rw [ofChars?, hread]
  rfl

/-- The text of a value in a style. -/
def text (style : Style) (j : Json) : String :=
  String.ofList (render style 0 j)

theorem parse?_text (hstyle : style.IsBlank) (j : Json) :
    parse? (j.text style) = some j.reread := by
  rw [parse?, text, String.toList_ofList, ofChars?_render hstyle]

/-! ## Values that come back -/

theorem reread_nat {n : ℕ} (h : n < UInt64.size) : reread (.nat n) = .nat n :=
  reread_integer (Int.le_trans (by decide) (Int.natCast_nonneg n)) (Int.ofNat_lt.mpr h)

theorem reread_uint8 (n : UInt8) : reread (.nat n.toNat) = .nat n.toNat :=
  reread_nat (Nat.lt_trans n.toNat_lt_size (by decide))

theorem reread_uint16 (n : UInt16) : reread (.nat n.toNat) = .nat n.toNat :=
  reread_nat (Nat.lt_trans n.toNat_lt_size (by decide))

theorem reread_uint32 (n : UInt32) : reread (.nat n.toNat) = .nat n.toNat :=
  reread_nat (Nat.lt_trans n.toNat_lt_size (by decide))

theorem reread_uint64 (n : UInt64) : reread (.nat n.toNat) = .nat n.toNat :=
  reread_nat n.toNat_lt_size

theorem reread_array (items : List Json) : reread (.array items) = .array (items.map reread) := by
  rw [reread, rereadItems_eq_map]

theorem reread_object (members : List (String × Json)) :
    reread (.object members) = .object (members.map fun member => (member.1, member.2.reread)) := by
  rw [reread, rereadMembers_eq_map]

theorem reread_map {α : Type} {f : α → Json} {l : List α} (h : ∀ a ∈ l, (f a).reread = f a) :
    (array (l.map f)).reread = array (l.map f) := by
  rw [reread_array, List.map_map]
  exact congrArg array (List.map_congr_left h)

/-- The reader gives a double back from its text. -/
def ReadsBack (x : Float) : Prop :=
  parse? (compact (.real x)) = some (.real x)

/-- The double that was written with a point or an exponent. -/
def real? : Json → Option Float
  | .real x => some x
  | _ => none

theorem real?_eq_some {j : Json} {x : Float} : j.real? = some x ↔ j = .real x := by
  cases j <;> simp [real?]

instance (x : Float) : Decidable (ReadsBack x) :=
  decidable_of_iff ((parse? (compact (.real x))).bind real? = some x) <| by
    simp [ReadsBack, Option.bind_eq_some_iff, real?_eq_some]

theorem ReadsBack.reread_real {x : Float} (h : ReadsBack x) : reread (.real x) = .real x :=
  Option.some.inj ((parse?_text Style.isBlank_compact (.real x)).symm.trans h)

theorem ReadsBack.reread_double {x : Float} (h : ReadsBack x) (hfinite : x.isFinite = true) :
    reread (.double x) = .double x := by
  rw [double, if_pos hfinite, h.reread_real]

end Chiptune.Json
