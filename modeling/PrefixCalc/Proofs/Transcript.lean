import PrefixCalc.CommandLine
import PrefixCalc.Proofs.Commands
import PrefixCalc.Proofs.Lines

/-! What comes out of a run is decided by the words of its lines, and by no line behind the one
where it stops. -/
namespace PrefixCalc
namespace Writing

variable {α β : Type}

/-- Nothing but the events may be different. -/
def Alike (x y : Writing α) : Prop := ∀ sink, (x.run sink).value = (y.run sink).value

lemma Alike.bind (x : Writing α) {f g : α → Writing β} (h : ∀ a, Alike (f a) (g a)) :
    Alike (x >>= f) (x >>= g) := by
  intro sink
  rcases hx : x.run sink with ⟨⟨taken, cause | ⟨a, sink'⟩⟩, events⟩
  · rw [run_bind_of_error hx, run_bind_of_error hx]
  · rw [run_bind_of_ok hx, run_bind_of_ok hx, h a sink']

end Writing

namespace Session
open Text (heard)
open Writing (Alike)

variable {β : Type}

/-- What a run writes at a line before it goes on. -/
def proceed (kit : Assembly.Kit β) (s : Session) (ws : List String)
    (lines : List (List UInt8)) : Writing Unit := do
  Writing.writeAll (bytesOf (s.replyTo kit ws).output)
  match (s.replyTo kit ws).control with
  | .error failure => Writing.interrupt (.aborted failure)
  | .ok .finish => Writing.flush
  | .ok .goOn => (s.replyTo kit ws).session.follow kit lines

variable (kit : Assembly.Kit β)

lemma follow_of_not_heard (s : Session) {line : List UInt8} (h : heard line = none)
    (lines : List (List UInt8)) : s.follow kit (line :: lines) = Writing.interrupt .notText :=
  follow_of_not_text kit s (Option.map_eq_none_iff.1 h) lines

lemma follow_of_heard (s : Session) {line : List UInt8} {ws : List String}
    (h : heard line = some ws) (lines : List (List UInt8)) :
    Alike (s.follow kit (line :: lines)) (s.proceed kit ws lines) := by
  obtain ⟨text, htext, rfl⟩ := Option.map_eq_some_iff.1 h
  intro sink
  rw [follow_of_text kit s htext, Writing.value_bind_liftM, value_execute]
  rfl

/-- It is enough for what follows that the words and the expression are the same. -/
lemma follow_cons_congr {s s' : Session} (hs : s.current = s'.current) {line line' : List UInt8}
    (hline : heard line = heard line') {lines lines' : List (List UInt8)}
    (h : ∀ t t' : Session, t.current = t'.current →
      Alike (t.follow kit lines) (t'.follow kit lines')) :
    Alike (s.follow kit (line :: lines)) (s'.follow kit (line' :: lines')) := by
  intro sink
  cases hheard : heard line' with
  | none =>
    rw [follow_of_not_heard kit s (hline.trans hheard), follow_of_not_heard kit s' hheard]
  | some ws =>
    obtain ⟨hcontrol, houtput, hcurrent⟩ := replyTo_congr kit hs ws
    rw [follow_of_heard kit s (hline.trans hheard), follow_of_heard kit s' hheard, proceed, proceed,
      hcontrol, houtput]
    refine Alike.bind _ (fun _ => ?_) sink
    match (s'.replyTo kit ws).control with
    | .error failure => exact fun _ => rfl
    | .ok .finish => exact fun _ => rfl
    | .ok .goOn => exact h _ _ hcurrent

theorem follow_congr {s s' : Session} (hs : s.current = s'.current)
    {lines lines' : List (List UInt8)} (hl : lines.map heard = lines'.map heard) :
    Alike (s.follow kit lines) (s'.follow kit lines') := by
  induction lines generalizing s s' lines' with
  | nil =>
    obtain rfl := List.map_eq_nil_iff.1 hl.symm
    exact fun _ => rfl
  | cons line lines ih =>
    obtain ⟨line', lines', rfl, hline, hrest⟩ := List.map_eq_cons_iff.1 hl.symm
    apply follow_cons_congr kit hs hline.symm
    intro t t' ht
    exact ih ht hrest.symm

lemma follow_append_congr {rest rest' : List (List UInt8)}
    (h : ∀ t t' : Session, t.current = t'.current →
      Alike (t.follow kit rest) (t'.follow kit rest'))
    (lines : List (List UInt8)) {s s' : Session} (hs : s.current = s'.current) :
    Alike (s.follow kit (lines ++ rest)) (s'.follow kit (lines ++ rest')) := by
  induction lines generalizing s s' with
  | nil => exact h s s' hs
  | cons line lines ih =>
    apply follow_cons_congr kit hs rfl
    intro t t' ht
    exact ih ht

lemma follow_of_end (s : Session) {line : List UInt8} (h : heard line = some ["end"])
    (lines : List (List UInt8)) : Alike (s.follow kit (line :: lines)) Writing.flush := by
  intro sink
  rw [follow_of_heard kit s h]
  simp [proceed, replyTo]

lemma follow_of_blank (s : Session) {line : List UInt8} (h : heard line = some [])
    (lines : List (List UInt8)) : Alike (s.follow kit (line :: lines)) (s.follow kit lines) := by
  intro sink
  rw [follow_of_heard kit s h]
  simp [proceed, replyTo]

lemma stops_of_not_text {line : List UInt8} (h : Text.decode? line = none) :
    stops line = true := by
  rw [stops, h]

lemma stops_of_text {line : List UInt8} {text : String} (h : Text.decode? line = some text) :
    stops line = decide (Text.words text = ["end"]) := by
  rw [stops, h]

lemma commands_of_stops {line : List UInt8} (h : stops line = true) (lines : List (List UInt8)) :
    commands (line :: lines) = [] := by
  simp [commands, h]

lemma commands_of_text {line : List UInt8} {text : String} (h : stops line = false)
    (htext : Text.decode? line = some text) (lines : List (List UInt8)) :
    commands (line :: lines) = text :: commands lines := by
  simp [commands, h, htext]

/-- How a run ends that stops at this line, or at none, when every byte is taken. -/
def ending (flushFails : Bool) (stop : Option (List UInt8)) : Option Interruption :=
  match stop.map Text.decode? with
  | some none => some .notText
  | _ => if flushFails then some .sinkClosed else none

lemma ending_of_not_text {line : List UInt8} (h : Text.decode? line = none) (flushFails : Bool) :
    ending flushFails (some line) = some .notText := by
  rw [ending, Option.map_some, h]

lemma ending_of_text {line : List UInt8} {text : String} (h : Text.decode? line = some text)
    (flushFails : Bool) : ending flushFails (some line) = ending flushFails none := by
  rw [ending, Option.map_some, h]
  rfl

lemma outcome_flush (flushFails : Bool) :
    (Writing.flush.run ⟨none, flushFails⟩).value.outcome = ⟨[], ending flushFails none⟩ := by
  cases flushFails <;> rfl

/-- What a run writes to a sink that takes every byte. -/
theorem outcome_follow {kit : Assembly.Kit β} (lawful : kit.Lawful) (s : Session)
    (lines : List (List UInt8)) (flushFails : Bool) :
    ((s.follow kit lines).run ⟨none, flushFails⟩).value.outcome =
      ⟨bytesOf (String.join ((s.executeAll kit (commands lines)).value.map Reply.output)),
        ending flushFails (lines.find? stops)⟩ := by
  induction lines generalizing s with
  | nil => exact outcome_flush flushFails
  | cons line lines ih =>
    cases htext : Text.decode? line with
    | none =>
      have hstops := stops_of_not_text htext
      rw [follow_of_not_text kit s htext, commands_of_stops hstops, List.find?_cons_of_pos hstops,
        ending_of_not_text htext]
      rfl
    | some text =>
      have hstops := stops_of_text htext
      by_cases hend : Text.words text = ["end"]
      · rw [decide_eq_true hend] at hstops
        have hheard : heard line = some ["end"] := by rw [heard, htext, Option.map_some, hend]
        rw [follow_of_end kit s hheard, outcome_flush, commands_of_stops hstops,
          List.find?_cons_of_pos hstops, ending_of_text htext]
        rfl
      · rw [decide_eq_false hend] at hstops
        have hcontrol := control_execute lawful s text
        rw [if_neg hend] at hcontrol
        have hrest := ih (s.execute kit text).value.session
        rw [follow_of_text kit s htext, Writing.value_bind_liftM, Writing.outcome_of_fit rfl,
          hcontrol, commands_of_text hstops htext, List.find?_cons_of_neg (by simp [hstops])]
        change Outcome.behind (((s.execute kit text).value.session.follow kit lines).run
          ⟨none, flushFails⟩).value.outcome _ = _
        rw [hrest, executeAll]
        simp [Outcome.behind, bytesOf_append]

/-- Among the lines of a run, those that are not text and those with no word but `end` stop it. -/
lemma stops_iff {line : List UInt8} : stops line = true ↔ Text.decode? line = none ∨
    ∃ pre post : String, (∀ c ∈ pre.toList, Text.isBlank c = true) ∧
      (∀ c ∈ post.toList, Text.isBlank c = true) ∧ line = bytesOf (pre ++ "end" ++ post) := by
  have hend : ∀ c ∈ "end".toList, Text.isBlank c = false := by
    have hall : "end".toList.all (fun c => !Text.isBlank c) = true := by decide
    simpa using List.all_eq_true.1 hall
  cases htext : Text.decode? line with
  | none => simp [stops_of_not_text htext]
  | some text =>
    have hstops : stops line = true ↔ Text.words text = ["end"] := by simp [stops_of_text htext]
    obtain rfl := Text.decode?_eq_some_iff.1 htext
    have hbytes : ∀ other : String, bytesOf text = bytesOf other ↔ text = other := by
      intro other
      rw [← Text.decode?_eq_some_iff, Text.decode?_bytesOf]
      simp [eq_comm]
    rw [hstops, Text.words_eq_singleton_iff]
    simp only [hbytes]
    simp [hend]

lemma map_bytesOf_commands (lines : List (List UInt8)) :
    (commands lines).map bytesOf = lines.takeWhile fun line => !stops line := by
  induction lines with
  | nil => rfl
  | cons line lines ih =>
    cases hstops : stops line with
    | true => simp [commands_of_stops hstops, hstops]
    | false =>
      cases htext : Text.decode? line with
      | none => simp [stops_of_not_text htext] at hstops
      | some text =>
        rw [commands_of_text hstops htext, List.map_cons, ih, Text.decode?_eq_some_iff.1 htext]
        simp [hstops]

/-- A run may as well keep the carriage returns. -/
lemma value_run_eq_cut (sink : Sink) (input : List UInt8) :
    (run kit sink input).value = ((empty.follow kit (Text.cut input)).run sink).value.outcome := by
  rw [value_run, follow_congr kit rfl (Text.map_heard_lines input)]

/-- A program that could read its input fails exactly if it stops at a line that is not text. -/
theorem exit_ofSource_eq_zero_iff {kit : Assembly.Kit β} (lawful : kit.Lawful)
    (path : Option String) (content : List UInt8) :
    (Report.ofSource kit path (.bytes content)).value.exit = 0 ↔
      ∀ line, (Text.cut content).find? stops = some line → Text.decode? line ≠ none := by
  have hrun : (run kit Sink.unlimited content).value.failure =
      ending false ((Text.cut content).find? stops) := by
    rw [value_run_eq_cut, Sink.unlimited, outcome_follow lawful]
  rw [Report.ofSource, Logged.value_map, Report.ofOutcome, hrun]
  cases hstop : (Text.cut content).find? stops with
  | none => simp [ending]
  | some line =>
    cases htext : Text.decode? line with
    | none => simp [ending_of_not_text htext, htext]
    | some text => simp [ending, htext]

/-- The words of a line decide the reply to it, and so carriage returns before the line feeds of an
input make no difference to a run, and neither does a line feed at the end. A print is not aborted,
and leaves the session as it was. -/
theorem words_decide :
    (∀ (s : Session) line, (s.execute kit line).value = s.replyTo kit (Text.words line)) ∧
    (∀ (s : Session) line line', Text.words line = Text.words line' →
      (s.execute kit line).value = (s.execute kit line').value) ∧
    (∀ sink input, (run kit sink (Text.withReturns input)).value = (run kit sink input).value) ∧
    (∀ sink input, (run kit sink (input ++ [Text.lineFeed])).value = (run kit sink input).value) ∧
    (kit.Lawful → ∀ (s : Session) mode,
      (s.shown kit mode).control = .ok .goOn ∧ (s.shown kit mode).session = s) := by
  refine ⟨value_execute kit, fun s line line' h => ?_, fun sink input => ?_, fun sink input => ?_,
    fun lawful s mode => ?_⟩
  · rw [value_execute, value_execute, h]
  · rw [value_run_eq_cut, value_run_eq_cut,
      follow_congr kit rfl (Text.map_heard_cut_withReturns input)]
  · rw [value_run_eq_cut, value_run_eq_cut]
    obtain hcut | hcut := Text.cut_append_lineFeed input
    · rw [hcut]
    · have hblank : ∀ t t' : Session, t.current = t'.current →
          Alike (t.follow kit [[]]) (t'.follow kit []) := by
        intro t t' _ sink
        rw [follow_of_blank kit t (by decide)]
        rfl
      have halike := follow_append_congr kit hblank (Text.cut input) (s := empty) rfl sink
      rw [List.append_nil] at halike
      rw [hcut, halike]
  · obtain ⟨lines, hlines⟩ := exists_lastLines lawful s.current mode []
    rw [shown, tell_of_lastLines hlines]
    exact ⟨rfl, rfl⟩

/-- A run with a sink that takes every byte is the session up to the first line that is not text or
asks for the end. What stands behind a line that asks for the end makes no difference. -/
theorem run_follows_commands {kit : Assembly.Kit β} (lawful : kit.Lawful) (input : List UInt8)
    (flushFails : Bool) :
    let lines := Text.cut input
    let texts := commands lines
    let outcome := (run kit ⟨none, flushFails⟩ input).value
    texts.map bytesOf = lines.takeWhile (fun line => !stops line) ∧
    outcome.output = bytesOf (String.join ((empty.executeAll kit texts).value.map Reply.output)) ∧
    (∀ line, lines.find? stops = some line → Text.decode? line = none →
      outcome.failure = some .notText) ∧
    (∀ line text, lines.find? stops = some line → Text.decode? line = some text →
      outcome.failure = if flushFails then some .sinkClosed else none) ∧
    (lines.find? stops = none →
      outcome.failure = if flushFails then some .sinkClosed else none) ∧
    (∀ line, stops line = true ↔ Text.decode? line = none ∨
      ∃ pre post : String, (∀ c ∈ pre.toList, Text.isBlank c = true) ∧
        (∀ c ∈ post.toList, Text.isBlank c = true) ∧ line = bytesOf (pre ++ "end" ++ post)) ∧
    (∀ before line rest text, lines = before ++ line :: rest → Text.decode? line = some text →
      Text.words text = ["end"] → ∀ sink input' rest', Text.cut input' = before ++ line :: rest' →
      (run kit sink input').value = (run kit sink input).value) ∧
    Interruption.notText.chain =
      ["could not read command", "stream did not contain valid UTF-8"] := by
  intro lines texts outcome
  have houtcome : outcome =
      ⟨bytesOf (String.join ((empty.executeAll kit texts).value.map Reply.output)),
        ending flushFails (lines.find? stops)⟩ := by
    rw [← outcome_follow lawful, ← value_run_eq_cut]
  have hfailure : outcome.failure = ending flushFails (lines.find? stops) := by rw [houtcome]
  refine ⟨map_bytesOf_commands lines, by rw [houtcome], ?_, ?_, ?_, fun line => stops_iff, ?_, rfl⟩
  · intro line hline htext
    rw [hfailure, hline, ending_of_not_text htext]
  · intro line text hline htext
    rw [hfailure, hline, ending_of_text htext]
    rfl
  · intro hnone
    rw [hfailure, hnone]
    rfl
  · intro before line rest text hlines htext hend sink input' rest' hlines'
    have hheard : heard line = some ["end"] := by rw [heard, htext, Option.map_some, hend]
    have hrest : ∀ t t' : Session, t.current = t'.current →
        Alike (t.follow kit (line :: rest')) (t'.follow kit (line :: rest)) := by
      intro t t' _ sink
      rw [follow_of_end kit t hheard, follow_of_end kit t' hheard]
    have halike := follow_append_congr kit hrest before (s := empty) rfl sink
    rw [value_run_eq_cut, value_run_eq_cut, hlines']
    change _ = Delivery.outcome ((empty.follow kit lines).run sink).value
    rw [hlines, halike]

/-- The error of the first definition does not end the run, and nothing behind `end` is read. -/
theorem run_follows_commands_past_error :
    let input := bytesOf "= +\n= + 5 7\nP\n end\r\n" ++ [255]
    let outcome := (run Assembly.inBytes ⟨none, false⟩ input).value
    Assembly.inBytes.Lawful ∧ outcome.output = bytesOf "Format Error\n5+7\n" ∧
      outcome.failure = none := by
  intro input outcome
  obtain ⟨-, houtput, -, hfailure, -⟩ :=
    run_follows_commands Assembly.lawful_inBytes input false
  have hstop : (Text.cut input).find? stops = some (bytesOf " end\r") := by decide +kernel
  refine ⟨Assembly.lawful_inBytes, houtput.trans (by decide +kernel), ?_⟩
  exact hfailure _ " end\r" hstop (Text.decode?_bytesOf _)

end Session
end PrefixCalc
