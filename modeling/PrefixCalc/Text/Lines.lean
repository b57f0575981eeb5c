/-! Lines of a byte sequence. A line ends with a line feed, and a carriage return right before
that belongs to the ending; what follows the last line feed is a line unless it is empty. -/
namespace PrefixCalc.Text

def lineFeed : UInt8 := 10
def carriageReturn : UInt8 := 13

/-- Puts a byte in front of the first piece. -/
def prependByte (b : UInt8) : List (List UInt8) → List (List UInt8)
  | [] => [[b]]
  | piece :: pieces => (b :: piece) :: pieces

/-- The lines together with their endings. -/
def pieces (bytes : List UInt8) : List (List UInt8) :=
  bytes.foldr (fun b rest => if b = lineFeed then [b] :: rest else prependByte b rest) []

/-- A line without its ending. -/
def chomp (piece : List UInt8) : List UInt8 :=
  match piece.reverse with
  | [] => piece
  | b :: before =>
    if b = lineFeed then
      match before with
      | [] => []
      | c :: rest => if c = carriageReturn then rest.reverse else before.reverse
    else piece

def lines (bytes : List UInt8) : List (List UInt8) := (pieces bytes).map chomp

/-- The text that the bytes of a line encode, if they encode one. -/
def decode? (line : List UInt8) : Option String := String.fromUTF8? ⟨line.toArray⟩

/-- What stands between line feeds, carriage returns and all. -/
def cut : List UInt8 → List (List UInt8)
  | [] => []
  | b :: bytes => if b = lineFeed then [] :: cut bytes else prependByte b (cut bytes)

/-- The same bytes with a carriage return before every line feed. -/
def withReturns (bytes : List UInt8) : List UInt8 :=
  bytes.flatMap fun b => if b = lineFeed then [carriageReturn, lineFeed] else [b]

theorem fromUTF8?_toUTF8 (text : String) : String.fromUTF8? text.toUTF8 = some text := by
  rw [String.fromUTF8?, String.toUTF8_eq_toByteArray, dif_pos text.isValidUTF8]
  rfl

theorem pieces_cons (b : UInt8) (bytes : List UInt8) :
    pieces (b :: bytes) =
      if b = lineFeed then [b] :: pieces bytes else prependByte b (pieces bytes) := rfl

theorem chomp_append_lineFeed {line : List UInt8} (h : line.getLast? ≠ some carriageReturn) :
    chomp (line ++ [lineFeed]) = line := by
  rcases List.eq_nil_or_concat line with rfl | ⟨before, b, rfl⟩
  · rfl
  · have hb : b ≠ carriageReturn := by simpa using h
    simp [chomp, hb]

theorem chomp_append_return (line : List UInt8) :
    chomp (line ++ [carriageReturn, lineFeed]) = line := by simp [chomp]

end PrefixCalc.Text
