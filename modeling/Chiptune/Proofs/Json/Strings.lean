import Chiptune.Json.Printer
import Chiptune.Json.Reader
import Mathlib.Data.List.Basic

/-!
# Strings in JSON text

Every string is read as it was written (`readString?_escape`).  The writer escapes a
character by itself, so the reader finds one piece for every character; a control character
without a letter of its own becomes a unit, which is never half of a pair.
-/

namespace Chiptune.Json

/-- The piece that the reader makes of an escaped character.  One that is written by its number
is read as a unit. -/
def pieceOf (c : Char) : Piece :=
  if c.toNat < 0x20 ∧ c ∉ ['\x08', '\x0c', '\n', '\r', '\t'] then .unit c.toNat else .char c

theorem lower_of_control : ∀ n : Fin 0x20,
    (Hex.lower 4 n).toList = ['0', '0', Nat.digitChar (n / 16), Nat.digitChar (n % 16)] := by
  decide +kernel

theorem hexUnit?_of_control : ∀ n : Fin 0x20,
    hexUnit? '0' '0' (Nat.digitChar (n / 16)) (Nat.digitChar (n % 16)) = some n.val := by
  decide +kernel

theorem readPieces?_numbered (done : List Piece) {c : Char} (hc : c.toNat < 0x20)
    (rest : List Char) :
    readPieces? done ('\\' :: 'u' :: ((Hex.lower 4 c.toNat).toList ++ rest)) =
      readPieces? (.unit c.toNat :: done) rest := by
  have hlower := lower_of_control ⟨c.toNat, hc⟩
  have hunit := hexUnit?_of_control ⟨c.toNat, hc⟩
  dsimp only at hlower hunit
  rw [hlower]
  simp only [List.cons_append, List.nil_append]
  rw [readPieces?, hunit]

theorem readPieces?_plain (done : List Piece) {c : Char} (hquote : c ≠ '"') (hescape : c ≠ '\\')
    (hc : ¬ c.toNat < 0x20) (rest : List Char) :
    readPieces? done (c :: rest) = readPieces? (.char c :: done) rest := by
  conv_lhs => unfold readPieces?
  split
  case h_5 heq =>
    obtain ⟨rfl, rfl⟩ := List.cons.inj heq
    rw [if_neg hc]
  all_goals simp_all

theorem readPieces?_escape (done : List Piece) (c : Char) (rest : List Char) :
    readPieces? done (escape c ++ rest) = readPieces? (pieceOf c :: done) rest := by
  unfold escape
  split
  case h_8 hquote hescape hb hf hn hr ht =>
    have hletter : c ∉ ['\x08', '\x0c', '\n', '\r', '\t'] := by
      simpa using ⟨hb, hf, hn, hr, ht⟩
    unfold pieceOf
    by_cases hc : c.toNat < 0x20
    · rw [if_pos hc, if_pos ⟨hc, hletter⟩]
      exact readPieces?_numbered done hc rest
    · rw [if_neg hc, if_neg fun h => hc h.1]
      exact readPieces?_plain done hquote hescape hc rest
  all_goals rfl

theorem readPieces?_quoted (done : List Piece) (cs rest : List Char) :
    readPieces? done (cs.flatMap escape ++ '"' :: rest) =
      some (done.reverse ++ cs.map pieceOf, rest) := by
  induction cs generalizing done with
  | nil => simp [readPieces?]
  | cons c cs ih =>
      rw [List.flatMap_cons, List.append_assoc, readPieces?_escape, ih]
      simp

/-- A unit that is no half stands for a character by itself, whatever comes behind it. -/
theorem join?_unit (done : List Char) {n : ℕ} (hhigh : isHighHalf n = false)
    (hlow : isLowHalf n = false) (pieces : List Piece) :
    join? done (.unit n :: pieces) = join? (Char.ofNat n :: done) pieces := by
  cases pieces with
  | nil => simp [join?, hhigh, hlow]
  | cons piece rest => cases piece <;> simp [join?, hhigh, hlow]

theorem join?_pieceOf (done cs : List Char) :
    join? done (cs.map pieceOf) = some (done.reverse ++ cs) := by
  induction cs generalizing done with
  | nil => simp [join?]
  | cons c cs ih =>
      rw [List.map_cons]
      have hfirst : join? done (pieceOf c :: cs.map pieceOf) =
          join? (c :: done) (cs.map pieceOf) := by
        unfold pieceOf
        split
        case isTrue hnumbered =>
          have hc : c.toNat < 0x20 := hnumbered.1
          have hhigh : isHighHalf c.toNat = false := by
            simp only [isHighHalf, Bool.and_eq_false_iff, decide_eq_false_iff_not]
            omega
          have hlow : isLowHalf c.toNat = false := by
            simp only [isLowHalf, Bool.and_eq_false_iff, decide_eq_false_iff_not]
            omega
          rw [join?_unit done hhigh hlow, Char.ofNat_toNat]
        case isFalse => rfl
      rw [hfirst, ih, List.reverse_cons, List.append_assoc]
      rfl

/-- Every string is read as it was written. -/
theorem readString?_escape (s : String) (rest : List Char) :
    readString? (s.toList.flatMap escape ++ '"' :: rest) = some (some s, rest) := by
  rw [readString?, readPieces?_quoted, Option.map_some]
  dsimp only [List.reverse_nil, List.nil_append]
  rw [join?_pieceOf, Option.map_some]
  simp

end Chiptune.Json
