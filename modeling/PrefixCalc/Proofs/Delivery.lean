import Mathlib.Tactic.Lemma
import PrefixCalc.Session.Run

/-! How a text is cut into writes makes no difference to a sink, and a sink that is too small keeps
the start of what a larger one would have got. -/
namespace PrefixCalc
namespace Sink

lemma fit_le (sink : Sink) (n : Nat) : sink.fit n ≤ n := by
  obtain ⟨_ | room, _⟩ := sink
  · exact Nat.le_refl n
  · exact Nat.min_le_left n room

@[simp] lemma after_zero (sink : Sink) : sink.after 0 = sink := by
  obtain ⟨_ | room, _⟩ := sink <;> rfl

lemma after_after (sink : Sink) (m n : Nat) : (sink.after m).after n = sink.after (m + n) := by
  obtain ⟨_ | room, _⟩ := sink
  · rfl
  · simp [after, Nat.sub_sub]

/-- What comes after bytes that were all taken meets the room that they left. -/
lemma fit_add {sink : Sink} {m : Nat} (h : sink.fit m = m) (n : Nat) :
    sink.fit (m + n) = m + (sink.after m).fit n := by
  obtain ⟨_ | room, _⟩ := sink
  · rfl
  · simp only [fit, after, Option.map_some] at h ⊢
    omega

lemma fit_add_of_lt {sink : Sink} {m : Nat} (h : sink.fit m < m) (n : Nat) :
    sink.fit (m + n) = sink.fit m := by
  obtain ⟨_ | room, _⟩ := sink
  · exact absurd h (Nat.lt_irrefl m)
  · simp only [fit] at h ⊢
    omega

end Sink

namespace Writing

@[simp] lemma writeAll_nil : writeAll [] = pure () := by
  rw [writeAll, if_pos rfl]

lemma writeAll_step {buffer : List UInt8} (h : buffer ≠ []) {sink : Sink} {n : Nat}
    (hn : sink.fit buffer.length = n) :
    (writeAll buffer).run sink =
      let rest := (if n = 0 then interrupt .sinkFull else writeAll (buffer.drop n)).run
        (sink.after n)
      ⟨⟨buffer.take n ++ rest.value.taken, rest.value.result⟩, rest.events⟩ := by
  subst hn
  rw [writeAll, if_neg h]
  exact run_bind_of_ok (x := write buffer) rfl _

theorem writeAll_of_fit {buffer : List UInt8} {sink : Sink}
    (h : sink.fit buffer.length = buffer.length) :
    (writeAll buffer).run sink = pure ⟨buffer, .ok ((), sink.after buffer.length)⟩ := by
  by_cases hne : buffer = []
  · subst hne
    rw [writeAll_nil, List.length_nil, Sink.after_zero]
    rfl
  · have hlength : buffer.length ≠ 0 := by simpa using hne
    rw [writeAll_step hne h, if_neg hlength, List.drop_length, writeAll_nil, List.take_length]
    exact Logged.ext (by simp [pure]) rfl

/-- The second attempt, if there is one, meets a sink without room. -/
theorem writeAll_of_not_fit {buffer : List UInt8} {sink : Sink}
    (h : sink.fit buffer.length < buffer.length) :
    (writeAll buffer).run sink = pure ⟨buffer.take (sink.fit buffer.length), .error .sinkFull⟩ := by
  obtain ⟨n, hn⟩ : ∃ n, sink.fit buffer.length = n := ⟨_, rfl⟩
  rw [hn] at h ⊢
  have hne : buffer ≠ [] := List.ne_nil_of_length_pos (Nat.zero_lt_of_lt h)
  rw [writeAll_step hne hn]
  by_cases hzero : n = 0
  · rw [if_pos hzero]
    exact Logged.ext (by simp [interrupt, pure]) rfl
  · have hrest : buffer.drop n ≠ [] := by simpa using h
    have hfull : (sink.after n).fit (buffer.drop n).length = 0 := by
      obtain ⟨_ | room, _⟩ := sink
      · simp only [Sink.fit] at hn
        omega
      · simp only [Sink.fit, Sink.after, Option.map_some] at hn ⊢
        omega
    rw [if_neg hzero, writeAll_step hrest hfull, if_pos rfl]
    exact Logged.ext (by simp [interrupt, pure]) rfl

/-- Two writes are as good as one. -/
theorem writeAll_append (a b : List UInt8) :
    writeAll (a ++ b) = (do writeAll a; writeAll b) := by
  ext sink : 2
  rcases Nat.eq_or_lt_of_le (sink.fit_le a.length) with ha | ha
  · rw [run_bind_of_ok (writeAll_of_fit ha)]
    have hfit := Sink.fit_add ha b.length
    rw [← List.length_append] at hfit
    rcases Nat.eq_or_lt_of_le ((sink.after a.length).fit_le b.length) with hb | hb
    · rw [writeAll_of_fit hb, writeAll_of_fit (by rw [hfit, hb, List.length_append]),
        Sink.after_after, List.length_append]
      rfl
    · rw [writeAll_of_not_fit hb, writeAll_of_not_fit (by rw [hfit, List.length_append]; omega),
        hfit, List.take_length_add_append]
      rfl
  · have hfit := Sink.fit_add_of_lt ha b.length
    rw [← List.length_append] at hfit
    rw [run_bind_of_error (writeAll_of_not_fit ha),
      writeAll_of_not_fit (by rw [hfit, List.length_append]; omega), hfit,
      List.take_append_of_le_length (Nat.le_of_lt ha)]
    rfl

@[simp] lemma interrupt_bind (cause : Interruption) (f : α → Writing β) :
    interrupt cause >>= f = interrupt cause := by
  ext sink : 2
  exact run_bind_of_error rfl f

@[simp] lemma map_interrupt (f : α → β) (cause : Interruption) :
    f <$> interrupt cause = interrupt cause := by
  rw [map_eq_pure_bind, interrupt_bind]

end Writing

namespace Session

lemma bytesOf_append (a b : String) : bytesOf (a ++ b) = bytesOf a ++ bytesOf b := by
  simp [bytesOf]

@[simp] lemma writeAll_bytesOf_empty : Writing.writeAll (bytesOf "") = pure () :=
  Writing.writeAll_nil

@[simp] lemma written_nil : written [] = "" := rfl

lemma written_append (a b : List String) : written (a ++ b) = written a ++ written b := by
  simp [written]

lemma writeLine_eq (text : String) :
    writeLine text = Writing.writeAll (bytesOf (written [text])) := by
  have hwritten : written [text] = text ++ "\n" := by simp [written]
  rw [hwritten, bytesOf_append, Writing.writeAll_append, writeLine]

lemma writeLines_eq (texts : List String) :
    writeLines texts = Writing.writeAll (bytesOf (written texts)) := by
  induction texts with
  | nil => exact writeAll_bytesOf_empty.symm
  | cons text texts ih =>
    rw [writeLines, ih, writeLine_eq, ← Writing.writeAll_append, ← bytesOf_append, ← written_append,
      List.singleton_append]

variable {β : Type} (kit : Assembly.Kit β)

/-- Executing a line on a sink is having its reply, with all its events, and then writing the
output. The pieces it is written in do not matter. -/
theorem executeOn_eq (s : Session) (line : String) :
    s.executeOn kit line = (do
      let reply ← s.execute kit line
      Writing.writeAll (bytesOf reply.output)
      match reply.control with
      | .error failure => Writing.interrupt (.aborted failure)
      | .ok control => return (control, reply.session)) := by
  rw [executeOn, execute]
  cases Command.ofLine line with
  | blank => simp [perform]
  | finish => simp [perform]
  | define text =>
    simp only [perform, defineOn, define, liftM_bind, bind_assoc]
    congr 1
    funext fed
    rcases fed.2.takeRoot with ⟨_ | e, r⟩ <;> rcases fed.1 <;> simp [writeLine_eq]
  | print mode =>
    simp only [perform, printOn, print, liftM_map, bind_map_left, bind_assoc]
    congr 1
    funext printout
    rw [writeLines_eq]
    obtain ⟨failure | _ | text, reports⟩ := printout
    · cases hfault : failure.fault? <;>
        simp [tell, lastLines, hfault, written_append, bytesOf_append, Writing.writeAll_append,
          writeLine_eq]
    · simp [tell, lastLines]
    · simp [tell, lastLines, written_append, bytesOf_append, Writing.writeAll_append, writeLine_eq]
  | unknown => simp [perform, writeLine_eq]

/-- Whether lines are advanced over at once or in parts makes no difference, and so each may be
answered before the next is known. -/
theorem advance_append (s : Session) (lines more : List (List UInt8)) :
    s.advance kit (lines ++ more) = (do
      match ← s.advance kit lines with
      | none => return none
      | some s => s.advance kit more) := by
  induction lines generalizing s with
  | nil =>
    rw [advance, pure_bind]
    rfl
  | cons line lines ih =>
    rw [List.cons_append, advance, advance]
    cases Text.decode? line with
    | none => exact (Writing.interrupt_bind _ _).symm
    | some text =>
      refine Eq.trans ?_ (bind_assoc _ _ _).symm
      apply bind_congr
      rintro ⟨control, s⟩
      cases control with
      | goOn => exact ih s
      | finish => exact (pure_bind _ _).symm

@[simp] lemma follow_nil (s : Session) : s.follow kit [] = Writing.flush := pure_bind _ _

lemma follow_of_not_text (s : Session) {line : List UInt8} (h : Text.decode? line = none)
    (lines : List (List UInt8)) : s.follow kit (line :: lines) = Writing.interrupt .notText := by
  rw [follow, advance, h]
  exact Writing.interrupt_bind _ _

lemma follow_of_text (s : Session) {line : List UInt8} {text : String}
    (h : Text.decode? line = some text) (lines : List (List UInt8)) :
    s.follow kit (line :: lines) = (do
      let reply ← s.execute kit text
      Writing.writeAll (bytesOf reply.output)
      match reply.control with
      | .error failure => Writing.interrupt (.aborted failure)
      | .ok .finish => Writing.flush
      | .ok .goOn => reply.session.follow kit lines) := by
  rw [follow, advance, h]
  change s.executeOn kit text >>= _ >>= _ = _
  rw [executeOn_eq, bind_assoc, bind_assoc]
  apply bind_congr
  intro reply
  rw [bind_assoc]
  apply bind_congr
  intro _
  match reply.control with
  | .error failure => exact Writing.interrupt_bind _ _
  | .ok .finish => exact (pure_bind _ _).trans (pure_bind _ _)
  | .ok .goOn => exact pure_bind _ _

end Session

namespace Outcome

/-- What comes after bytes that were taken. -/
def behind (o : Outcome) (bytes : List UInt8) : Outcome := { o with output := bytes ++ o.output }

/-- The same with a sink that takes at most `limit` bytes: all of it, or its first `limit` bytes and
then the news that the sink is full. -/
def limited (o : Outcome) (limit : Nat) : Outcome :=
  if o.output.length ≤ limit then o else ⟨o.output.take limit, some .sinkFull⟩

/-- The same with a sink that cannot be flushed, which nobody learns after another failure. -/
def unflushed (o : Outcome) : Outcome := { o with failure := some (o.failure.getD .sinkClosed) }

lemma limited_behind (o : Outcome) {bytes : List UInt8} {limit : Nat} (h : bytes.length ≤ limit) :
    (o.behind bytes).limited limit = (o.limited (limit - bytes.length)).behind bytes := by
  have hle : (bytes ++ o.output).length ≤ limit ↔ o.output.length ≤ limit - bytes.length := by
    rw [List.length_append]
    omega
  by_cases ho : o.output.length ≤ limit - bytes.length
  · simp only [limited, behind, hle, ho, if_true]
  · simp only [limited, behind, hle, ho, if_false, List.take_append, List.take_of_length_le h]

lemma limited_behind_of_lt (o : Outcome) {bytes : List UInt8} {limit : Nat}
    (h : limit < bytes.length) :
    (o.behind bytes).limited limit = ⟨bytes.take limit, some .sinkFull⟩ := by
  have hlt : ¬ (bytes ++ o.output).length ≤ limit := by
    rw [List.length_append]
    omega
  simp only [limited, behind, hlt, if_false, List.take_append_of_le_length (Nat.le_of_lt h)]

end Outcome

namespace Writing

/-- The sink decides how much is written and how it ends, not what is written. -/
structure Steady (x : Writing Unit) : Prop where
  limited (limit : Nat) :
    (x.run ⟨some limit, false⟩).value.outcome = (x.run Sink.unlimited).value.outcome.limited limit
  unflushed (room : Option Nat) :
    (x.run ⟨room, true⟩).value.outcome = (x.run ⟨room, false⟩).value.outcome.unflushed

lemma steady_flush : Steady flush := ⟨fun _ => rfl, fun _ => rfl⟩

lemma steady_interrupt (cause : Interruption) : Steady (interrupt cause) :=
  ⟨fun _ => rfl, fun _ => rfl⟩

lemma value_bind_liftM (x : Logged α) (f : α → Writing β) (sink : Sink) :
    ((liftM x >>= f).run sink).value = ((f x.value).run sink).value := by
  rw [run_bind_of_ok rfl]
  rfl

lemma Steady.bind_liftM {x : Logged α} {f : α → Writing Unit} (h : Steady (f x.value)) :
    Steady (liftM x >>= f) := by
  constructor
  · intro limit
    rw [value_bind_liftM, value_bind_liftM]
    exact h.limited limit
  · intro room
    rw [value_bind_liftM, value_bind_liftM]
    exact h.unflushed room

lemma outcome_of_fit {buffer : List UInt8} {sink : Sink}
    (h : sink.fit buffer.length = buffer.length) (x : Writing Unit) :
    ((do writeAll buffer; x).run sink).value.outcome =
      (x.run (sink.after buffer.length)).value.outcome.behind buffer := by
  rw [run_bind_of_ok (writeAll_of_fit h)]
  rfl

lemma outcome_of_not_fit {buffer : List UInt8} {sink : Sink}
    (h : sink.fit buffer.length < buffer.length) (x : Writing Unit) :
    ((do writeAll buffer; x).run sink).value.outcome =
      ⟨buffer.take (sink.fit buffer.length), some .sinkFull⟩ := by
  rw [run_bind_of_error (writeAll_of_not_fit h)]
  rfl

lemma Steady.writeAll_then {x : Writing Unit} (h : Steady x) (buffer : List UInt8) :
    Steady (do writeAll buffer; x) := by
  constructor
  · intro limit
    have hfree : Sink.unlimited.fit buffer.length = buffer.length := rfl
    rw [outcome_of_fit hfree]
    rcases Nat.lt_or_ge limit buffer.length with hlt | hle
    · have hfit : Sink.fit ⟨some limit, false⟩ buffer.length = limit :=
        Nat.min_eq_right (Nat.le_of_lt hlt)
      rw [outcome_of_not_fit (by rwa [hfit]), hfit, Outcome.limited_behind_of_lt _ hlt]
    · have hfit : Sink.fit ⟨some limit, false⟩ buffer.length = buffer.length :=
        Nat.min_eq_left hle
      rw [outcome_of_fit hfit, Outcome.limited_behind _ hle]
      exact congrArg (Outcome.behind · buffer) (h.limited (limit - buffer.length))
  · intro room
    rcases Nat.eq_or_lt_of_le (Sink.fit_le ⟨room, true⟩ buffer.length) with hfit | hfit
    · have hfit' : Sink.fit ⟨room, false⟩ buffer.length = buffer.length := hfit
      rw [outcome_of_fit hfit, outcome_of_fit hfit']
      exact congrArg (Outcome.behind · buffer) (h.unflushed _)
    · have hfit' : Sink.fit ⟨room, false⟩ buffer.length < buffer.length := hfit
      rw [outcome_of_not_fit hfit, outcome_of_not_fit hfit']
      rfl

end Writing

namespace Session

variable {β : Type} (kit : Assembly.Kit β)

lemma steady_follow (s : Session) (lines : List (List UInt8)) : (s.follow kit lines).Steady := by
  induction lines generalizing s with
  | nil =>
    rw [follow_nil]
    exact Writing.steady_flush
  | cons line lines ih =>
    cases h : Text.decode? line with
    | none =>
      rw [follow_of_not_text kit s h]
      exact Writing.steady_interrupt _
    | some text =>
      rw [follow_of_text kit s h]
      refine Writing.Steady.bind_liftM (Writing.Steady.writeAll_then ?_ _)
      match (s.execute kit text).value.control with
      | .error failure => exact Writing.steady_interrupt _
      | .ok .finish => exact Writing.steady_flush
      | .ok .goOn => exact ih _

lemma value_run (sink : Sink) (input : List UInt8) : (run kit sink input).value =
    ((empty.follow kit (Text.lines input)).run sink).value.outcome := rfl

/-- A sink that takes at most `limit` bytes keeps the first `limit` bytes of the whole output; a
sink that cannot be flushed turns a success into a failure and changes nothing else. -/
theorem run_on_bounded_sink (input : List UInt8) :
    (∀ limit, (run kit ⟨some limit, false⟩ input).value =
      (run kit Sink.unlimited input).value.limited limit) ∧
    (∀ room, (run kit ⟨room, true⟩ input).value =
      (run kit ⟨room, false⟩ input).value.unflushed) ∧
    Interruption.sinkFull.chain = ["failed to write whole buffer"] ∧
    Interruption.sinkClosed.chain = ["could not flush output", "sink closed"] := by
  have hsteady := steady_follow kit empty (Text.lines input)
  refine ⟨?_, ?_, rfl, rfl⟩
  · intro limit
    rw [value_run, value_run, hsteady.limited]
  · intro room
    rw [value_run, value_run, hsteady.unflushed]

/-- One byte of the line is taken, and then the sink is full before it could be flushed. -/
example : (run Assembly.inBytes ⟨some 1, true⟩ (bytesOf "= + 5 7\nP\n")).value =
    ⟨bytesOf "5", some .sinkFull⟩ := by decide +kernel

end Session
end PrefixCalc
