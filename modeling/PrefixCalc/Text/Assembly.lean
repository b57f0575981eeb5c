import PrefixCalc.Fault
import PrefixCalc.Text.Lines

/-! Texts that are put together from pieces. A builder is handed the pieces one after another, and
in the end it is asked for the text, which it may fail to give. -/
namespace PrefixCalc.Assembly

/-- The calls that a text is put together with. A failure comes with a message. -/
structure Kit (β : Type) where
  start : β
  append : β → String → β
  string : β → Except String String

namespace Kit

variable {β : Type}

/-- The text that a builder gives is all its pieces, one after another. -/
structure Lawful (kit : Kit β) : Prop where
  string_appended (texts : List String) :
    kit.string (texts.foldl kit.append kit.start) = .ok (String.join texts)

/-- Asks for the text when this was attempted with it. -/
def finish (kit : Kit β) (attempt : String) (b : β) : Except Failure String :=
  match kit.string b with
  | .ok text => .ok text
  | .error message => .error ⟨.foreign message, [attempt]⟩

/-- Whatever was appended before, the pieces that are appended now come to this text. -/
def Appends (kit : Kit β) (write : β → β) (text : String) : Prop :=
  ∃ texts, String.join texts = text ∧ ∀ b, write b = texts.foldl kit.append b

theorem Appends.piece (kit : Kit β) (text : String) : kit.Appends (kit.append · text) text :=
  ⟨[text], by simp, fun _ => rfl⟩

theorem Appends.comp {kit : Kit β} {first second : β → β} {a b : String}
    (h : kit.Appends first a) (h' : kit.Appends second b) :
    kit.Appends (fun builder => second (first builder)) (a ++ b) := by
  obtain ⟨texts, rfl, hfirst⟩ := h
  obtain ⟨texts', rfl, hsecond⟩ := h'
  refine ⟨texts ++ texts', by simp, ?_⟩
  intro builder
  rw [List.foldl_append, ← hfirst, ← hsecond]

theorem Lawful.finish_eq {kit : Kit β} (lawful : kit.Lawful) {write : β → β} {text : String}
    (h : kit.Appends write text) (attempt : String) :
    kit.finish attempt (write kit.start) = .ok text := by
  obtain ⟨texts, rfl, hwrite⟩ := h
  rw [finish, hwrite, lawful.string_appended]

end Kit

/-- Keeps the bytes of the pieces, and reads them as one text in the end. -/
def inBytes : Kit ByteArray where
  start := .empty
  append bytes text := bytes ++ text.toUTF8
  string bytes :=
    match String.fromUTF8? bytes with
    | some text => .ok text
    | none => .error "invalid utf-8 sequence"

theorem lawful_inBytes : inBytes.Lawful where
  string_appended texts := by
    have hbytes : texts.foldl inBytes.append inBytes.start = (String.join texts).toUTF8 :=
      @List.foldl_hom _ _ _ String.toUTF8 _ _ texts "" fun text piece =>
        String.toByteArray_append.symm
    rw [hbytes]
    simp only [inBytes, Text.fromUTF8?_toUTF8]

end PrefixCalc.Assembly
