import Mathlib.Data.List.Forall2
import PrefixCalc.Proofs.Delivery
import PrefixCalc.Proofs.Trimming

/-! Bytes, lines and words. A carriage return at the end of a line neither makes its bytes a text
nor keeps them from being one, and it adds no word. So it makes no difference whether it is taken
for a part of the line or of its ending. -/
namespace PrefixCalc
namespace Text
open Session (bytesOf)

lemma toByteArray_bytesOf (text : String) :
    ByteArray.mk (bytesOf text).toArray = text.toByteArray := rfl

theorem decode?_bytesOf (text : String) : decode? (bytesOf text) = some text :=
  fromUTF8?_toUTF8 text

theorem decode?_eq_some_iff {line : List UInt8} {text : String} :
    decode? line = some text ↔ bytesOf text = line := by
  constructor
  · intro h
    rw [decode?, String.fromUTF8?] at h
    split at h
    · obtain rfl := Option.some.inj h
      rfl
    · cases h
  · rintro rfl
    exact decode?_bytesOf text

lemma decode?_eq_none_iff {line : List UInt8} :
    decode? line = none ↔ ¬ (ByteArray.mk line.toArray).IsValidUTF8 := by
  simp [decode?, String.fromUTF8?]

/-- Where a text begins inside another, a character begins, and so the bytes in front are text. -/
lemma isValidUTF8_of_decode?_append {line : List UInt8} {text whole : String}
    (h : decode? (line ++ bytesOf text) = some whole) :
    (ByteArray.mk line.toArray).IsValidUTF8 := by
  rw [decode?_eq_some_iff] at h
  have hbytes : whole.toByteArray = ByteArray.mk line.toArray ++ text.toByteArray := by
    rw [← toByteArray_bytesOf, h]
    exact ByteArray.ext (by simp [bytesOf])
  have hsize : whole.utf8ByteSize = (ByteArray.mk line.toArray).size + text.toByteArray.size := by
    rw [← String.size_toByteArray, hbytes, ByteArray.size_append]
  have hstart : String.Pos.Raw.IsValid whole ⟨(ByteArray.mk line.toArray).size⟩ := by
    rw [String.Pos.Raw.isValid_iff_isValidUTF8_extract_utf8ByteSize]
    refine ⟨?_, ?_⟩
    · change (ByteArray.mk line.toArray).size ≤ whole.utf8ByteSize
      omega
    · rw [hbytes, ByteArray.extract_append_eq_right rfl hsize]
      exact text.isValidUTF8
  have hfront := (String.Pos.Raw.isValid_iff_isValidUTF8_extract_zero.1 hstart).2
  rwa [hbytes, ByteArray.extract_append_eq_left rfl] at hfront

theorem decode?_append (line : List UInt8) (text : String) :
    decode? (line ++ bytesOf text) = (decode? line).map (· ++ text) := by
  cases hline : decode? line with
  | some first =>
    rw [decode?_eq_some_iff] at hline
    rw [Option.map_some, decode?_eq_some_iff, Session.bytesOf_append, hline]
  | none =>
    apply Option.eq_none_iff_forall_ne_some.2
    intro whole hwhole
    exact decode?_eq_none_iff.1 hline (isValidUTF8_of_decode?_append hwhole)

/-- The words of a line of bytes, if they are text. -/
def heard (line : List UInt8) : Option (List String) := (decode? line).map words

lemma heard_append_return (line : List UInt8) : heard (line ++ [carriageReturn]) = heard line := by
  have hbytes : [carriageReturn] = bytesOf "\r" := by decide
  have hblank : "\r".toList.all isBlank = true := by decide
  have hwords : ∀ text : String, words (text ++ "\r") = words text := by
    intro text
    rw [words_eq, words_eq, String.toList_append,
      wordsOf_append_of_blank (List.all_eq_true.1 hblank)]
  rw [heard, hbytes, decode?_append, Option.map_map, heard]
  congr 1
  funext text
  exact hwords text

/-- A line without its line feed. -/
def withoutFeed (piece : List UInt8) : List UInt8 :=
  if piece.getLast? = some lineFeed then piece.dropLast else piece

lemma withoutFeed_cons {b : UInt8} (hb : b ≠ lineFeed) (piece : List UInt8) :
    withoutFeed (b :: piece) = b :: withoutFeed piece := by
  cases piece with
  | nil => simp [withoutFeed, hb]
  | cons c piece =>
    rw [withoutFeed, withoutFeed, List.getLast?_cons_cons, List.dropLast_cons_cons]
    split <;> rfl

theorem cut_eq (bytes : List UInt8) : cut bytes = (pieces bytes).map withoutFeed := by
  induction bytes with
  | nil => rfl
  | cons b bytes ih =>
    rw [cut, pieces_cons, ih]
    by_cases hb : b = lineFeed
    · rw [if_pos hb, if_pos hb, hb]
      rfl
    · rw [if_neg hb, if_neg hb]
      cases pieces bytes with
      | nil => simp [prependByte, withoutFeed, hb]
      | cons piece rest => simp [prependByte, withoutFeed_cons hb]

lemma heard_chomp (piece : List UInt8) : heard (chomp piece) = heard (withoutFeed piece) := by
  rcases List.eq_nil_or_concat piece with rfl | ⟨before, b, rfl⟩
  · rfl
  rw [List.concat_eq_append]
  by_cases hb : b = lineFeed
  · subst hb
    have hfeed : withoutFeed (before ++ [lineFeed]) = before := by simp [withoutFeed]
    rw [hfeed]
    by_cases hreturn : before.getLast? = some carriageReturn
    · obtain ⟨rest, rfl⟩ := List.getLast?_eq_some_iff.1 hreturn
      rw [heard_append_return, List.append_assoc]
      exact congrArg heard (chomp_append_return rest)
    · rw [chomp_append_lineFeed hreturn]
  · simp [chomp, withoutFeed, hb]

/-- It does not matter to the words whether the carriage returns are taken for endings. -/
theorem map_heard_lines (bytes : List UInt8) : (lines bytes).map heard = (cut bytes).map heard := by
  rw [lines, cut_eq, List.map_map, List.map_map]
  apply List.map_congr_left
  intro piece _
  exact heard_chomp piece

/-- The first line is the second one, with a carriage return after it or without. -/
def Returned (line' line : List UInt8) : Prop := line' = line ∨ line' = line ++ [carriageReturn]

lemma map_heard_of_returned {lines' lines : List (List UInt8)}
    (h : List.Forall₂ Returned lines' lines) : lines'.map heard = lines.map heard := by
  induction h with
  | nil => rfl
  | @cons line' line _ _ hline _ ih =>
    have hheard : heard line' = heard line := by
      obtain rfl | rfl := hline
      · rfl
      · exact heard_append_return line
    rw [List.map_cons, List.map_cons, hheard, ih]

lemma forall₂_prependByte (b : UInt8) {lines' lines : List (List UInt8)}
    (h : List.Forall₂ Returned lines' lines) :
    List.Forall₂ Returned (prependByte b lines') (prependByte b lines) := by
  cases h with
  | nil => exact .cons (.inl rfl) .nil
  | cons hline hrest =>
    refine .cons ?_ hrest
    obtain rfl | rfl := hline
    · exact .inl rfl
    · exact .inr rfl

lemma forall₂_cut_withReturns (bytes : List UInt8) :
    List.Forall₂ Returned (cut (withReturns bytes)) (cut bytes) := by
  induction bytes with
  | nil => exact .nil
  | cons b bytes ih =>
    by_cases hb : b = lineFeed
    · subst hb
      exact .cons (.inr rfl) ih
    · have hreturns : withReturns (b :: bytes) = b :: withReturns bytes := by
        simp [withReturns, hb]
      rw [hreturns, cut, cut, if_neg hb, if_neg hb]
      exact forall₂_prependByte b ih

theorem map_heard_cut_withReturns (bytes : List UInt8) :
    (cut (withReturns bytes)).map heard = (cut bytes).map heard :=
  map_heard_of_returned (forall₂_cut_withReturns bytes)

/-- A line feed at the end completes the last line or is an empty line of its own. -/
theorem cut_append_lineFeed (bytes : List UInt8) :
    cut (bytes ++ [lineFeed]) = cut bytes ∨ cut (bytes ++ [lineFeed]) = cut bytes ++ [[]] := by
  induction bytes with
  | nil => exact .inr rfl
  | cons b bytes ih =>
    rw [List.cons_append, cut, cut]
    by_cases hb : b = lineFeed
    · rw [if_pos hb, if_pos hb]
      obtain h | h := ih
      · exact .inl (by rw [h])
      · exact .inr (by rw [h, List.cons_append])
    · rw [if_neg hb, if_neg hb]
      obtain h | h := ih
      · exact .inl (by rw [h])
      · rw [h]
        cases cut bytes with
        | nil => exact .inl rfl
        | cons line rest => exact .inr rfl

end Text
end PrefixCalc
