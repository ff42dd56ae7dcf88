import FormulaTable.Journal.ConsoleLine
import FormulaTable.Proofs.Journal.JsonLine

/-!
# What writing for a console leaves behind

Writing a record for a console sets attributes of the record: its level takes on a colour and is set
back, and the message, the time and the text of the error stay. A line of JSON hides these, whether
or not the writing comes to an end, except for the time, which it takes for an attribute given with
the record.
-/

namespace FormulaTable.Journal

namespace Record
variable {r : Record} {key : String}

def withText (r : Record) (key : String) : Option String → Record
  | none => r
  | some t => r.withAttribute key (.text t)

@[simp] theorem created_withText (t? : Option String) :
    (r.withText key t?).created = r.created := by
  cases t? <;> rfl

@[simp] theorem millis_withText (t? : Option String) : (r.withText key t?).millis = r.millis := by
  cases t? <;> rfl

@[simp] theorem errorText?_withText (t? : Option String) :
    (r.withText key t?).errorText? = r.errorText? := by
  cases t? <;> rfl

theorem message_withText (h : "msg" ≠ key) (hmethod : "getMessage" ≠ key) (t? : Option String) :
    (r.withText key t?).message = r.message := by
  cases t? with
  | none => rfl
  | some t => exact message_withAttribute h hmethod _

theorem loggerName_withText (h : "name" ≠ key) (t? : Option String) :
    (r.withText key t?).loggerName = r.loggerName := by
  cases t? with
  | none => rfl
  | some t => exact textAttribute_withAttribute h _ _

theorem levelText_withText_self (t : String) :
    (r.withText "levelname" (some t)).levelText = t := by
  rw [levelText, textAttribute, withText, withAttribute, Keyed.get?_set_self]

theorem isExtraKey_asctime : isExtraKey "asctime" = true := by decide +kernel

theorem extraFields_withText_hidden (h : isExtraKey key = false) (t? : Option String) :
    (r.withText key t?).extraFields = r.extraFields := by
  cases t? with
  | none => rfl
  | some t => exact Keyed.filter_put_of_hidden h _ _

theorem extraFields_withText_shown (h : isExtraKey key = true) (t? : Option String) :
    (r.withText key t?).extraFields =
      t?.elim r.extraFields fun t => Keyed.put key (.text t) r.extraFields := by
  cases t? with
  | none => rfl
  | some t => exact Keyed.filter_put_of_shown h _ _

end Record

namespace Console
variable {r : Record} {date : DateFormat} {format : String}

/-- The time that the writing of a record by a format leaves with the record: it is made out once
the message is known, if the format asks for it. -/
def writtenTime? (date : DateFormat) (format : String) (r : Record) : Option String :=
  if usesTime format.toList then
    match r.message with
    | .ok _ => (date r.created r.millis).toOption
    | .error _ => none
  else none

theorem withErrorText_eq (r : Record) : ∃ error?, withErrorText r = r.withText "exc_text" error? :=
  ⟨errorText? r, by unfold withErrorText; cases errorText? r <;> rfl⟩

theorem timed_cases {message : String} (date : DateFormat) (format : String)
    (h : r.message = .ok message) :
    (∃ e, timed date format.toList (r.withText "message" (some message)) = .error e ∧
        writtenTime? date format r = none) ∨
      timed date format.toList (r.withText "message" (some message)) =
        .ok ((r.withText "message" (some message)).withText "asctime"
          (writtenTime? date format r)) := by
  unfold timed writtenTime?
  rw [h, Record.created_withText, Record.millis_withText]
  cases usesTime format.toList with
  | false => exact .inr rfl
  | true =>
    cases date r.created r.millis with
    | error e => exact .inl ⟨e, rfl, rfl⟩
    | ok t => exact .inr rfl

theorem write_record (r : Record) (date : DateFormat) (format : String) :
    ∃ message? error?, (r.write date format).record =
      ((r.withText "message" message?).withText "asctime" (writtenTime? date format r)).withText
        "exc_text" error? := by
  cases hmessage : r.message with
  | error e =>
    have htime : writtenTime? date format r = none := by simp [writtenTime?, hmessage]
    simp only [Record.write, hmessage, htime]
    exact ⟨none, none, rfl⟩
  | ok message =>
    have hset : r.withText "message" (some message) = r.withAttribute "message" (.text message) :=
      rfl
    have htimed := timed_cases date format hmessage
    rw [hset] at htimed
    obtain ⟨e, htimed, htime⟩ | htimed := htimed
    · simp only [Record.write, hmessage, htimed, htime]
      exact ⟨some message, none, rfl⟩
    · simp only [Record.write, hmessage, htimed]
      split
      · obtain ⟨error?, herror⟩ := withErrorText_eq _
        exact ⟨some message, error?, herror⟩
      · exact ⟨some message, none, rfl⟩
      · exact ⟨some message, none, rfl⟩

theorem writtenTime?_withText {key : String} (h : "msg" ≠ key) (hmethod : "getMessage" ≠ key)
    (t? : Option String) :
    writtenTime? date format (r.withText key t?) = writtenTime? date format r := by
  rw [writtenTime?, Record.message_withText h hmethod, Record.created_withText, Record.millis_withText,
    writtenTime?]

/-- The time that a record keeps when a console has printed it. A format without any placeholder is
refused at once. -/
def keptTime? (date : DateFormat) (format : String) (r : Record) : Option String :=
  let format := if format.isEmpty then plainFormat else format
  if hasNamed format.toList then writtenTime? date format r else none

theorem printDated_record (r : Record) (date : DateFormat) (format : String) :
    (r.printDated date format).record = r ∧ keptTime? date format r = none ∨
      ∃ message? error?, (r.printDated date format).record =
        ((((r.withText "levelname" (some (coloured r.levelText))).withText "message"
          message?).withText "asctime" (keptTime? date format r)).withText "exc_text"
            error?).withText "levelname" (some r.levelText) := by
  unfold Record.printDated keptTime?
  extract_lets format' level p
  cases hasNamed format'.toList with
  | false => exact .inl ⟨rfl, rfl⟩
  | true =>
    obtain ⟨message?, error?, hwrite⟩ :=
      write_record (r.withText "levelname" (some (coloured level))) date format'
    rw [writtenTime?_withText (by decide) (by decide)] at hwrite
    exact .inr ⟨message?, error?, congrArg (Record.withText · "levelname" (some level)) hwrite⟩

theorem levelText_printDated (r : Record) (date : DateFormat) (format : String) :
    (r.printDated date format).record.levelText = r.levelText := by
  obtain ⟨hsame, -⟩ | ⟨message?, error?, hrecord⟩ := printDated_record r date format
  · rw [hsame]
  · rw [hrecord, Record.levelText_withText_self]

theorem printDated_seen (r : Record) (date : DateFormat) (format : String) :
    (r.printDated date format).record.message = r.message ∧
      (∀ message, (r.printDated date format).record.ownTexts message = r.ownTexts message) ∧
      (r.printDated date format).record.extraFields =
        (r.withText "asctime" (keptTime? date format r)).extraFields := by
  obtain ⟨hsame, htime⟩ | ⟨message?, error?, hrecord⟩ := printDated_record r date format
  · rw [hsame, htime]
    exact ⟨rfl, fun _ => rfl, rfl⟩
  · rw [hrecord]
    refine ⟨?_, fun message => ?_, ?_⟩
    · simp (disch := decide) only [Record.message_withText]
    · simp (disch := decide) only [Record.ownTexts, Record.levelText_withText_self,
        Record.loggerName_withText, Record.created_withText, Record.millis_withText,
        Record.errorText?_withText]
    · simp (disch := decide) only [Record.extraFields_withText_hidden,
        Record.extraFields_withText_shown Record.isExtraKey_asctime]

theorem ownTexts_withTime (r : Record) (t? : Option String) (message : String) :
    (r.withText "asctime" t?).ownTexts message = r.ownTexts message := by
  cases t? with
  | none => rfl
  | some t => exact Record.ownTexts_withAttribute Record.isExtraKey_asctime _ message

theorem jsonLine_printDated (r : Record) (date : DateFormat) (format : String)
    (write : Json.Writer) :
    (r.printDated date format).record.jsonLine write =
      (r.withText "asctime" (keptTime? date format r)).jsonLine write := by
  obtain ⟨hmessage, hown, hfields⟩ := printDated_seen r date format
  refine Record.jsonLine_congr ?_ (fun message => ?_) hfields write
  · rw [hmessage, Record.message_withText (by decide) (by decide)]
  · rw [hown, ownTexts_withTime]

end Console

/-- Printing leaves nothing that a line of JSON shows but the time of the record, which it leaves
just if the format asks for it and the message and the time can be made out. This holds for any way
to write JSON. With a writer that differs just in the objects that it knows, such a record does not
give the line again that it would have given before. -/
theorem Record.printDated_trace (r : Record) (date : Console.DateFormat) (format : String) :
    let after := (r.printDated date format).record
    after.levelText = r.levelText ∧
      (Console.keptTime? date format r = none →
        after.extraFields = r.extraFields ∧ ∀ write, after.jsonLine write = r.jsonLine write) ∧
      ∀ t, Console.keptTime? date format r = some t →
        after.extraFields = Keyed.put "asctime" (.text t) r.extraFields ∧
          (∀ write, after.jsonLine write =
            (r.withAttribute "asctime" (.text t)).jsonLine write) ∧
          (r.extra.get? "asctime" = none → ∀ native line,
            r.jsonLine (Json.writer native) = .ok line →
              after.jsonLine (Json.writer native) ≠ .ok line) := by
  intro after
  have hline := Console.jsonLine_printDated r date format
  obtain ⟨-, -, hfields⟩ := Console.printDated_seen r date format
  refine ⟨Console.levelText_printDated r date format, fun hnone => ?_, fun t hsome => ?_⟩
  · rw [hnone] at hline hfields
    exact ⟨hfields, hline⟩
  · rw [hsome] at hline hfields
    rw [extraFields_withText_shown isExtraKey_asctime] at hfields
    refine ⟨hfields, hline, fun hnew native line hbefore => ?_⟩
    rw [hline]
    exact jsonLine_withAttribute_ne isExtraKey_asctime (by decide) hnew hbefore _

theorem Record.printDated_trace_hello :
    let r : Record := ⟨"n", 20, "hello", [], 1700000000, 0, .empty, some (.ofMessage "bad")⟩
    Console.keptTime? Console.standardDate "%(levelname)s %(message)s" r = none ∧
      (r.print "%(levelname)s %(message)s").record.jsonLine = r.jsonLine ∧
      Console.keptTime? Console.standardDate Console.standardFormat r =
        some "2023-11-14 22:13:20" ∧
      (r.print Console.standardFormat).record.extraFields =
        [("asctime", .text "2023-11-14 22:13:20")] := by
  intro r
  have hplain : Console.keptTime? Console.standardDate "%(levelname)s %(message)s" r = none := by
    decide +kernel
  have htime : Console.keptTime? Console.standardDate Console.standardFormat r =
      some "2023-11-14 22:13:20" := by decide +kernel
  obtain ⟨-, hnone, -⟩ := printDated_trace r Console.standardDate "%(levelname)s %(message)s"
  obtain ⟨-, -, hsome⟩ := printDated_trace r Console.standardDate Console.standardFormat
  exact ⟨hplain, (hnone hplain).2 _, htime, (hsome _ htime).1⟩

/-- After the printing a line of JSON shows the time as if it had been given with the record. -/
theorem Record.print_not_hidden :
    let r : Record := ⟨"n", 20, "hello", [], 1700000000, 0, .empty, none⟩
    r.jsonLine = .ok ("\x7b\"timestamp\":\"2023-11-14 22:13:20,000\",\"level\":\"INFO\"," ++
        "\"logger\":\"n\",\"message\":\"hello\"\x7d") ∧
      (r.print Console.standardFormat).record.jsonLine =
        .ok ("\x7b\"timestamp\":\"2023-11-14 22:13:20,000\",\"level\":\"INFO\"," ++
          "\"logger\":\"n\",\"message\":\"hello\"," ++
          "\"extra\":\x7b\"asctime\":\"2023-11-14 22:13:20\"\x7d\x7d") := by
  decide +kernel

end FormulaTable.Journal
