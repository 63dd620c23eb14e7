import Chiptune.Json.Printer
import Chiptune.Json.Reader
import Mathlib.Data.List.Basic

/-!
# Numbers in JSON text

A `NumeralText` is a numeral as it is written: its parts are runs of digits, of which the
first begins with zero only if it is a single zero.  The reader finds the parts again and
stops behind them if nothing follows that could belong to a number
(`NumeralText.readNumeral?_append`).

Two layouts write such texts: the one of integers (`IntegerText`), which come back as they
were as long as they have 64 bits (`ofNumeral_integer`), and the one of doubles, whatever
double it is given (`numbers_render`).
-/

namespace Chiptune.Json

/-! ## Runs of digits -/

/-- One digit or more. -/
structure DigitRun (cs : List Char) : Prop where
  ne_nil : cs ≠ []
  isDigit : ∀ c ∈ cs, c.isDigit = true

/-- What the digits of a run stand for. -/
def digitValues (cs : List Char) : List ℕ :=
  cs.map fun c => c.toNat - '0'.toNat

/-- The first character is none that satisfies `p`. -/
def Avoids (p : Char → Prop) (cs : List Char) : Prop :=
  ∀ c ∈ cs.head?, ¬ p c

/-- The characters that a reader of numbers would go on with. -/
def Continues (c : Char) : Prop :=
  c.isDigit = true ∨ c = '.' ∨ c = 'e' ∨ c = 'E'

instance : DecidablePred Continues :=
  fun c => inferInstanceAs (Decidable (c.isDigit = true ∨ c = '.' ∨ c = 'e' ∨ c = 'E'))

variable {cs rest : List Char} {p q : Char → Prop} {c : Char}

theorem Avoids.mono (h : Avoids q cs) (hpq : ∀ c, p c → q c) : Avoids p cs :=
  fun c hc hp => h c hc (hpq c hp)

theorem avoids_cons : Avoids p (c :: cs) ↔ ¬ p c := by
  simp [Avoids]

theorem avoids_nil : Avoids p [] :=
  nofun

theorem digit?_of_isDigit (h : c.isDigit = true) : digit? c = some (c.toNat - '0'.toNat) := by
  rw [Char.isDigit_iff_toNat] at h
  exact if_pos h

theorem digit?_of_not_isDigit (h : ¬ c.isDigit = true) : digit? c = none := by
  rw [Char.isDigit_iff_toNat] at h
  exact if_neg h

theorem readDigits_of_avoids (done : List ℕ) (hrest : Avoids (Char.isDigit · = true) rest) :
    readDigits done rest = (done.reverse, rest) := by
  cases rest with
  | nil => rfl
  | cons c rest => rw [readDigits, digit?_of_not_isDigit (avoids_cons.mp hrest)]

theorem readDigits_append (done : List ℕ) (hcs : ∀ c ∈ cs, c.isDigit = true)
    (hrest : Avoids (Char.isDigit · = true) rest) :
    readDigits done (cs ++ rest) = (done.reverse ++ digitValues cs, rest) := by
  induction cs generalizing done with
  | nil =>
      rw [List.nil_append, readDigits_of_avoids done hrest]
      exact congrArg (·, rest) (List.append_nil _).symm
  | cons c cs ih =>
      obtain ⟨hc, hcs⟩ := List.forall_mem_cons.mp hcs
      rw [List.cons_append, readDigits, digit?_of_isDigit hc]
      dsimp only
      rw [ih _ hcs, List.reverse_cons, List.append_assoc]
      rfl

theorem DigitRun.readDigits?_append (h : DigitRun cs)
    (hrest : Avoids (Char.isDigit · = true) rest) :
    readDigits? (cs ++ rest) = some (digitValues cs, rest) := by
  have hne : digitValues cs ≠ [] := fun hnil => h.ne_nil (List.map_eq_nil_iff.mp hnil)
  unfold readDigits?
  rw [readDigits_append [] h.isDigit hrest]
  cases hvalues : digitValues cs with
  | nil => exact absurd hvalues hne
  | cons d ds => rfl

theorem DigitRun.append (h : DigitRun cs) (hrest : ∀ c ∈ rest, c.isDigit = true) :
    DigitRun (cs ++ rest) :=
  ⟨List.append_ne_nil_of_left_ne_nil h.ne_nil rest, List.forall_mem_append.mpr ⟨h.isDigit, hrest⟩⟩

theorem DigitRun.behind (h : DigitRun cs) (hrest : ∀ c ∈ rest, c.isDigit = true) :
    DigitRun (rest ++ cs) :=
  ⟨List.append_ne_nil_of_right_ne_nil rest h.ne_nil, List.forall_mem_append.mpr ⟨hrest, h.isDigit⟩⟩

theorem digitRun_zero : DigitRun ['0'] :=
  ⟨List.cons_ne_nil '0' [], List.forall_mem_singleton.mpr rfl⟩

theorem isDigit_of_mem_zeros {n : ℕ} : ∀ c ∈ List.replicate n '0', c.isDigit = true := by
  intro c hc
  rw [List.eq_of_mem_replicate hc]
  decide

theorem digitRun_toDigits (n : ℕ) : DigitRun (Nat.toDigits 10 n) :=
  ⟨Nat.toDigits_ne_nil, fun _ => Nat.isDigit_of_mem_toDigits (by decide) (by decide)⟩

theorem spelled_toDigits (n : ℕ) : spelled (digitValues (Nat.toDigits 10 n)) = n := by
  unfold spelled digitValues
  rw [List.foldl_map]
  exact Nat.ofDigitChars_ten_toDigits

/-- The digits of a number do not begin with zero. -/
theorem head?_toDigits {n : ℕ} (hn : n ≠ 0) : (Nat.toDigits 10 n).head? ≠ some '0' := by
  induction n using Nat.strongRecOn with
  | ind n ih =>
      rw [Nat.toDigits_eq_if (by decide)]
      split
      case isTrue hlt => simpa using hn
      case isFalse hge =>
        rw [List.head?_append_of_ne_nil _ Nat.toDigits_ne_nil]
        exact ih (n / 10) (by omega) (by omega)

/-! ## Numerals -/

/-- The characters of a numeral, part by part. -/
structure NumeralText where
  negative : Bool
  whole : List Char
  fraction : Option (List Char)
  /-- Whether the exponent is negative, and its digits. -/
  exponent : Option (Bool × List Char)
  whole_run : DigitRun whole
  /-- A zero in front stands alone. -/
  whole_zero : whole.head? = some '0' → whole = ['0']
  fraction_run : ∀ digits ∈ fraction, DigitRun digits
  exponent_run : ∀ part ∈ exponent, DigitRun part.2

namespace NumeralText

def signChars (negative : Bool) : List Char :=
  if negative then ['-'] else []

def fractionChars : Option (List Char) → List Char
  | none => []
  | some digits => '.' :: digits

def exponentChars : Option (Bool × List Char) → List Char
  | none => []
  | some (negative, digits) => 'e' :: (if negative then '-' else '+') :: digits

def exponentValue (part : Bool × List Char) : Int :=
  if part.1 then -(spelled (digitValues part.2) : Int) else spelled (digitValues part.2)

def chars (t : NumeralText) : List Char :=
  signChars t.negative ++ (t.whole ++ (fractionChars t.fraction ++ exponentChars t.exponent))

/-- What the characters stand for. -/
def numeral (t : NumeralText) : Numeral :=
  ⟨t.negative, digitValues t.whole, t.fraction.map digitValues, t.exponent.map exponentValue⟩

variable (t : NumeralText) {rest : List Char}

theorem exists_eq_cons : ∃ c cs, t.chars = c :: cs ∧ (c = '-' ∨ c.isDigit = true) := by
  unfold chars signChars
  cases t.negative with
  | true => exact ⟨_, _, rfl, .inl rfl⟩
  | false =>
      obtain ⟨c, cs, hwhole⟩ := List.exists_cons_of_ne_nil t.whole_run.ne_nil
      have hc := t.whole_run.isDigit c (hwhole ▸ List.mem_cons_self)
      rw [hwhole]
      exact ⟨c, _, rfl, .inr hc⟩

theorem readWhole?_append (hrest : Avoids (Char.isDigit · = true) rest) :
    readWhole? (t.whole ++ rest) = some (digitValues t.whole, rest) := by
  by_cases hzero : t.whole.head? = some '0'
  · rw [t.whole_zero hzero]
    rfl
  · rw [← t.whole_run.readDigits?_append hrest]
    obtain ⟨c, cs, hwhole⟩ := List.exists_cons_of_ne_nil t.whole_run.ne_nil
    have hc : c ≠ '0' := by simpa [hwhole] using hzero
    rw [hwhole, List.cons_append]
    unfold readWhole?
    split
    case h_1 heq => exact absurd (List.cons.inj heq).1 hc
    case h_2 => rfl

theorem avoids_exponentChars (hp : ¬ p 'e') (hrest : Avoids p rest) :
    Avoids p (exponentChars t.exponent ++ rest) := by
  cases t.exponent with
  | none => exact hrest
  | some part => exact avoids_cons.mpr hp

theorem avoids_fractionChars (hp : ¬ p '.') (hrest : Avoids p rest) :
    Avoids p (fractionChars t.fraction ++ rest) := by
  cases t.fraction with
  | none => exact hrest
  | some digits => exact avoids_cons.mpr hp

theorem readFraction?_append (hrest : Avoids (fun c => c.isDigit = true ∨ c = '.') rest) :
    readFraction? (fractionChars t.fraction ++ rest) =
      some (t.fraction.map digitValues, rest) := by
  have hrun := t.fraction_run
  cases hfraction : t.fraction with
  | none =>
      show readFraction? rest = some (none, rest)
      unfold readFraction?
      split
      case h_1 => exact absurd (.inr rfl) (avoids_cons.mp hrest)
      case h_2 => rfl
  | some digits =>
      have hdigits := (hrun digits hfraction).readDigits?_append (hrest.mono fun _ => .inl)
      show (readDigits? (digits ++ rest)).map _ = _
      rw [hdigits]
      rfl

theorem readExponent?_append (hrest : Avoids Continues rest) :
    readExponent? (exponentChars t.exponent ++ rest) =
      some (t.exponent.map exponentValue, rest) := by
  have hrun := t.exponent_run
  cases hexponent : t.exponent with
  | none =>
      show readExponent? rest = some (none, rest)
      unfold readExponent?
      split
      case h_1 => exact absurd (.inr (.inr (.inl rfl))) (avoids_cons.mp hrest)
      case h_2 => exact absurd (.inr (.inr (.inr rfl))) (avoids_cons.mp hrest)
      case h_3 => rfl
  | some part =>
      obtain ⟨negative, digits⟩ := part
      have hdigits := (hrun _ hexponent).readDigits?_append (hrest.mono fun _ => .inl)
      cases negative with
      | true =>
          show ((readDigits? (digits ++ rest)).map _).map _ = _
          rw [hdigits]
          rfl
      | false =>
          show ((readDigits? (digits ++ rest)).map _).map _ = _
          rw [hdigits]
          rfl

/-- The reader takes the whole numeral, and nothing of what follows it. -/
theorem readNumeral?_append (hrest : Avoids Continues rest) :
    readNumeral? (t.chars ++ rest) = some (t.numeral, rest) := by
  have hexponent := t.readExponent?_append hrest
  have hfraction := t.readFraction?_append <| t.avoids_exponentChars (by decide) <|
    hrest.mono fun c hc => hc.imp_right .inl
  have hwhole := t.readWhole?_append <| t.avoids_fractionChars (by decide) <|
    t.avoids_exponentChars (by decide) <| hrest.mono fun _ => .inl
  unfold readNumeral? chars numeral
  rw [List.append_assoc, List.append_assoc, List.append_assoc]
  cases hnegative : t.negative with
  | true =>
      show (readWhole? (t.whole ++ _)).bind _ = _
      rw [hwhole]
      simp [signChars, hfraction, hexponent]
  | false =>
      obtain ⟨c, cs, hcons⟩ := List.exists_cons_of_ne_nil t.whole_run.ne_nil
      have hc : c ≠ '-' := by
        rintro rfl
        exact absurd (t.whole_run.isDigit '-' (hcons ▸ List.mem_cons_self)) (by decide)
      rw [hcons, List.cons_append] at hwhole
      simp [signChars, hcons, hc, hwhole, hfraction, hexponent]

/-! ## Integers -/

/-- An integer has no other parts. -/
def ofInt (n : Int) : NumeralText where
  negative := n < 0
  whole := Nat.toDigits 10 n.natAbs
  fraction := none
  exponent := none
  whole_run := digitRun_toDigits n.natAbs
  whole_zero hzero := by
    have hn : n.natAbs = 0 := by_contra fun hn => head?_toDigits hn hzero
    rw [hn]
    rfl
  fraction_run := nofun
  exponent_run := nofun

theorem chars_ofInt (n : Int) : (ofInt n).chars = integerText n := by
  unfold chars integerText ofInt signChars fractionChars exponentChars
  by_cases hn : n < 0 <;> simp [hn]

/-- An integer of 64 bits, signed or not, is read as it was written. -/
theorem ofNumeral_ofInt {n : Int} (hlow : Int64.minValue.toInt ≤ n) (hhigh : n < UInt64.size) :
    ofNumeral (ofInt n).numeral = .integer n := by
  have hvalue : (digitValues (Nat.toDigits 10 n.natAbs)).foldl (fun n d => 10 * n + d) 0 =
      n.natAbs := spelled_toDigits n.natAbs
  have hint : (ofInt n).numeral.toInt? = some n := by
    have hmin : Int64.minValue.toInt = -9223372036854775808 := by decide
    unfold Numeral.toInt? numeral ofInt
    simp only [Option.map_none, hvalue, decide_eq_true_eq, hmin] at hlow ⊢
    by_cases hn : n < 0
    · rw [if_pos hn, if_pos ⟨by omega, by omega⟩]
      congr 1
      omega
    · rw [if_neg hn, if_pos (by omega)]
      congr 1
      omega
  unfold ofNumeral
  rw [hint]

/-! ## Doubles -/

/-- Digits before and after a point. -/
def pointed (whole fraction : List Char) (hwhole : DigitRun whole)
    (hzero : whole.head? = some '0' → whole = ['0']) (hfraction : DigitRun fraction) :
    NumeralText where
  negative := false
  whole := whole
  fraction := some fraction
  exponent := none
  whole_run := hwhole
  whole_zero := hzero
  fraction_run := by
    rintro _ ⟨⟩
    exact hfraction
  exponent_run := nofun

theorem chars_pointed {whole fraction : List Char} {hwhole : DigitRun whole}
    {hzero : whole.head? = some '0' → whole = ['0']} {hfraction : DigitRun fraction} :
    (pointed whole fraction hwhole hzero hfraction).chars = whole ++ '.' :: fraction := by
  simp [chars, pointed, signChars, fractionChars, exponentChars]

section

variable {digits : List Char} (hrun : DigitRun digits) (hhead : digits.head? ≠ some '0')

include hrun hhead

theorem exists_placePoint (whole : Int) :
    ∃ t : NumeralText, t.negative = false ∧ Layout.placePoint ".0" digits whole = t.chars := by
  unfold Layout.placePoint
  split
  case isTrue =>
    refine ⟨pointed ['0'] (List.replicate (-whole).toNat '0' ++ digits) digitRun_zero
      (fun _ => rfl) (hrun.behind isDigit_of_mem_zeros), rfl, ?_⟩
    rw [chars_pointed]
    rfl
  case isFalse hwhole =>
    dsimp only
    split
    case isTrue =>
      refine ⟨pointed (digits ++ List.replicate (whole.toNat - digits.length) '0') ['0']
        (hrun.append isDigit_of_mem_zeros) (fun hzero => absurd ?_ hhead) digitRun_zero, rfl, ?_⟩
      · rwa [List.head?_append_of_ne_nil _ hrun.ne_nil] at hzero
      · rw [chars_pointed]
        rfl
    case isFalse hlength =>
      have hpos : whole.toNat ≠ 0 := by omega
      refine ⟨pointed (digits.take whole.toNat) (digits.drop whole.toNat) ⟨?_, ?_⟩ ?_ ⟨?_, ?_⟩,
        rfl, chars_pointed.symm⟩
      · simp [hpos, hrun.ne_nil]
      · exact fun c hc => hrun.isDigit c (List.mem_of_mem_take hc)
      · intro hzero
        rw [List.head?_take, if_neg hpos] at hzero
        exact absurd hzero hhead
      · simpa using hlength
      · exact fun c hc => hrun.isDigit c (List.mem_of_mem_drop hc)

theorem exists_withExponent (exponent : Int) :
    ∃ t : NumeralText, t.negative = false ∧ Layout.withExponent digits exponent = t.chars := by
  have hdigits := hrun.isDigit
  have hexponent := digitRun_toDigits exponent.natAbs
  cases digits with
  | nil => exact absurd rfl hrun.ne_nil
  | cons d rest =>
      obtain ⟨hd, hrest⟩ := List.forall_mem_cons.mp hdigits
      have hfirst : DigitRun [d] := ⟨List.cons_ne_nil d [], by simpa using hd⟩
      refine ⟨⟨false, [d], if rest = [] then none else some rest,
        some (decide (exponent < 0), Nat.toDigits 10 exponent.natAbs), hfirst,
        fun hzero => absurd hzero hhead, ?_, ?_⟩, rfl, ?_⟩
      · intro fraction hfraction
        split at hfraction
        case isTrue => cases hfraction
        case isFalse hne =>
          cases hfraction
          exact ⟨hne, hrest⟩
      · rintro _ ⟨⟩
        exact hexponent
      · cases rest <;> simp [Layout.withExponent, chars, signChars, fractionChars, exponentChars]

end

end NumeralText

open NumeralText

/-- The text of a decimal is a numeral. -/
theorem numbers_decimal (x : Decimal) :
    ∃ t : NumeralText, t.negative = false ∧ numbers.decimal x = t.chars := by
  unfold Layout.decimal
  by_cases hx : x.digits = 0
  · refine ⟨pointed ['0'] ['0'] digitRun_zero (fun _ => rfl) digitRun_zero, rfl, ?_⟩
    rw [chars_pointed, hx]
    rfl
  · have hrun := digitRun_toDigits x.digits
    have hhead := head?_toDigits hx
    simp only [beq_iff_eq, hx, if_false]
    split
    · exact exists_placePoint hrun hhead _
    · exact exists_withExponent hrun hhead _

/-- The text of a double is a numeral, unless the double is no number. -/
theorem numbers_render (x : Float) :
    numbers.render x = ['n', 'u', 'l', 'l'] ∨ ∃ t : NumeralText, numbers.render x = t.chars := by
  unfold Layout.render
  cases Binary64.view x with
  | nan => exact .inl rfl
  | infinite negative => cases negative <;> exact .inl rfl
  | finite p =>
      obtain ⟨t, hsign, hchars⟩ := numbers_decimal (Decimal.shortest numbers.tie p)
      right
      cases hp : p.negative with
      | false => exact ⟨t, by simpa [hp] using hchars⟩
      | true =>
          refine ⟨{ t with negative := true }, ?_⟩
          simp [hp, hchars, chars, hsign, signChars]

end Chiptune.Json
