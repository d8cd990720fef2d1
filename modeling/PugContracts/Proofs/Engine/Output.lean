import PugContracts.Proofs.Engine.Files

/-!
# Compiler output is read back

A compiler prints reports, with other lines such as a summary between them. Each report becomes the
diagnostic that it was printed from: its first line gives the file and the numbers, and each further
line of its message continues it (`foldl_addLine_report`). Other lines are passed over. From this,
the diagnostics of all that is printed are found by induction, one item after the other.

What is reported on the file of a program is moved to the template, and what is reported on any
other file stays where it is.

## Main results

* `readOutput_printed` — printed items are read back in order, and those on a program are moved
-/

namespace PugContracts

namespace Engine

open Text (EndsUnblank)

/-! ### Numbers -/

theorem isDigit_of_mem_toDigits {n : Nat} {c : Char} (hc : c ∈ Nat.toDigits 10 n) :
    c.isDigit = true :=
  Nat.isDigit_of_mem_toDigits (by decide) (by decide) hc

theorem isNumber_toDigits (n : Nat) : IsNumber (Nat.toDigits 10 n) :=
  ⟨Nat.toDigits_ne_nil, fun _ hc => isDecimalDigit_of_isDigit (isDigit_of_mem_toDigits hc)⟩

theorem readBelow?_toDigits {bound n : Nat} (h : n < bound) :
    Text.readBelow? bound (Nat.toDigits 10 n) = some n := by
  have hvalue : Text.digitsValue (Nat.toDigits 10 n) = n := Nat.ofDigitChars_ten_toDigits
  have hdigits : (Nat.toDigits 10 n).all Char.isDigit = true :=
    List.all_eq_true.mpr fun _ => isDigit_of_mem_toDigits
  rw [Text.readBelow?, hvalue, hdigits, if_pos (by simp [h, Nat.toDigits_ne_nil])]

/-! ### What is printed -/

/-- A report of a compiler. -/
structure Report where
  /-- The file. -/
  file : Path
  /-- How the file is spelled. -/
  written : Path
  /-- The line in the file. -/
  line : Nat
  /-- The column in the line. -/
  column : Nat
  /-- The number of the error. -/
  code : Nat
  /-- How severe it is. -/
  severity : Severity
  /-- The message, on one or more lines. -/
  message : String

/-- What a report says, with a message of its own. -/
def Report.saying (report : Report) (message : String) : EngineDiagnostic :=
  ⟨report.file, report.line, report.column, some report.code, report.severity, message⟩

/-- What a report says. -/
def Report.diagnostic (report : Report) : EngineDiagnostic :=
  report.saying report.message

/-- The text of a report. -/
def Report.text (report : Report) : String :=
  report.written.text ++ "(" ++ toString report.line ++ "," ++ toString report.column ++ "): " ++
    severityWord report.severity ++ " TS" ++ toString report.code ++ ": " ++ report.message ++ "\n"

/-- A further line of a message. -/
structure Continues (line : List Char) : Prop where
  /-- It is indented. -/
  indented : line.head? = some ' '
  /-- No blanks stand at its end. -/
  ends : EndsUnblank line
  /-- It is not read as a diagnostic itself. -/
  plain : ¬ IsDiagnosticLine line

/-- A report that can be printed by a compiler which runs in the directory `base`. -/
structure Report.Readable (base : Path) (report : Report) : Prop where
  /-- A compiler can report on the file. -/
  file : Nameable report.file
  /-- What is written leads there. -/
  written : Spells base report.file report.written
  /-- The line can be counted. -/
  line : report.line < positionLimit
  /-- The column can be counted. -/
  column : report.column < positionLimit
  /-- The number is one of an error. -/
  code : report.code < codeLimit
  /-- No blanks stand at the end of the first line of the message. -/
  ends : ∀ first ∈ (Text.newlinePieces report.message.toList).head?, EndsUnblank first
  /-- The further lines continue it. -/
  continues : ∀ line ∈ (Text.newlinePieces report.message.toList).tail, Continues line

/-- What a compiler prints. -/
inductive Item where
  /-- A report. -/
  | report (content : Report)
  /-- A line that is no report. -/
  | note (line : String)

/-- The text of an item. -/
def Item.text : Item → String
  | .report content => content.text
  | .note line => line ++ "\n"

/-- The diagnostic of an item. -/
def Item.diagnostic? : Item → Option EngineDiagnostic
  | .report content => some content.diagnostic
  | .note _ => none

/-- An item that is printed as one: a line that is no report is not indented, and is not read as a
diagnostic. -/
def Item.Readable (base : Path) : Item → Prop
  | .report content => content.Readable base
  | .note line =>
    '\n' ∉ line.toList ∧ line.toList.head? ≠ some ' ' ∧ ¬ IsDiagnosticLine line.toList

/-- The output that consists of items. -/
def printed (items : List Item) : String :=
  String.join (items.map Item.text)

variable {base : Path} {report : Report} {items : List Item} {line rest : List Char}
  {found : List EngineDiagnostic} {diagnostic : EngineDiagnostic}

/-! ### Reading lines -/

theorem diagnostic?_eq_none (h : ¬ IsDiagnosticLine line) : diagnostic? base line = none := by
  rw [diagnostic?, cutFile?_eq_none h, Option.map_none]

theorem addLine_of_diagnostic? (h : diagnostic? base line = some diagnostic) :
    addLine base found line = diagnostic :: found := by
  unfold addLine
  rw [h]

theorem Continues.addLine (h : Continues line) :
    addLine base (diagnostic :: found) line = continued diagnostic line :: found := by
  unfold Engine.addLine
  rw [diagnostic?_eq_none h.plain]
  exact if_pos h.indented

theorem addLine_eq_self (hplain : ¬ IsDiagnosticLine line) (hhead : line.head? ≠ some ' ') :
    addLine base found line = found := by
  unfold addLine
  rw [diagnostic?_eq_none hplain]
  cases found with
  | nil => rfl
  | cons last others => exact if_neg hhead

/-- The further lines of a message are added to it. -/
theorem foldl_addLine_continues {lines : List (List Char)} (h : ∀ line ∈ lines, Continues line) :
    lines.foldl (addLine base) (diagnostic :: found) =
      { diagnostic with
        message := diagnostic.message ++ String.ofList (lines.flatMap ('\n' :: ·)) } :: found := by
  induction lines generalizing diagnostic with
  | nil => simp
  | cons line lines ih =>
    obtain ⟨hline, hlines⟩ := List.forall_mem_cons.mp h
    rw [List.foldl_cons, hline.addLine, ih hlines, continued, Text.trimEnd_eq_self hline.ends]
    simp [String.append_assoc]

/-- The mark of a report, and one line after it. -/
def Report.finding (report : Report) (message : List Char) : Finding :=
  ⟨Nat.toDigits 10 report.line, Nat.toDigits 10 report.column, report.severity,
    Nat.toDigits 10 report.code, message⟩

theorem Report.numbered (report : Report) (message : List Char) :
    (report.finding message).Numbered :=
  ⟨isNumber_toDigits _, isNumber_toDigits _, isNumber_toDigits _⟩

theorem Report.toList_text (report : Report) : report.text.toList =
    report.written.text.toList ++ (report.finding []).mark ++ report.message.toList ++ ['\n'] := by
  simp [Report.text, Report.finding, Finding.mark]

/-- The first line of a report is read as what the report says, up to the rest of the message. -/
theorem Report.Readable.diagnostic?_first (h : report.Readable base)
    (hbase : base.isAbsolute = true) (first : List Char) :
    Engine.diagnostic? base (report.written.text.toList ++ (report.finding []).mark ++ first) =
      some (report.saying (String.ofList first)) := by
  have hwritten := h.written.plain h.file.plain
  have hne : report.written.text.toList ≠ [] := fun hnil =>
    h.written.nonempty (String.toList_eq_nil_iff.mp hnil)
  have hmark : (report.finding []).mark ++ first =
      (report.finding first).mark ++ (report.finding first).message := rfl
  rw [Engine.diagnostic?, List.append_assoc, hmark,
    cutFile?_append hne hwritten.unmarked (report.numbered first)]
  simp [Report.finding, Report.saying, readBelow?_toDigits h.line,
    readBelow?_toDigits h.column, readBelow?_toDigits h.code, h.written.absolutize_eq hbase h.file]

/-- **A report is read as what it says.** -/
theorem foldl_addLine_report (hbase : base.isAbsolute = true) (h : report.Readable base) :
    (Text.lines (report.text.toList ++ rest)).foldl (addLine base) found =
      (Text.lines rest).foldl (addLine base) (report.diagnostic :: found) := by
  obtain ⟨first, more, hmessage⟩ := List.exists_cons_of_ne_nil
    (Text.splitAtEach_ne_nil (· == '\n') report.message.toList)
  have hnumbered := report.numbered []
  have hends := h.ends
  have hcontinues := h.continues
  rw [Text.newlinePieces, hmessage] at hends hcontinues
  rw [List.tail_cons] at hcontinues
  have hhead : '\n' ∉ report.written.text.toList ++ (report.finding []).mark := fun hmem =>
    (List.mem_append.mp hmem).elim (h.written.plain h.file.plain).unbroken
      hnumbered.newline_notMem_mark
  have hfirst : Text.dropReturn (report.written.text.toList ++ (report.finding []).mark ++ first) =
      report.written.text.toList ++ (report.finding []).mark ++ first := by
    refine Text.dropReturn_eq_self fun c hc => ?_
    rw [List.getLast?_append, List.getLast?_append, Finding.getLast?_mark] at hc
    cases hlast : first.getLast? with
    | none =>
      rw [hlast] at hc
      cases hc
      decide
    | some last =>
      rw [hlast] at hc
      cases hc
      exact (hends first rfl).ne_return c hlast
  have hmore : more.map Text.dropReturn = more := by
    refine (List.map_congr_left fun line hline => ?_).trans (List.map_id more)
    exact (hcontinues line hline).ends.dropReturn_eq_self
  have hall : report.message = String.ofList first ++ String.ofList (more.flatMap ('\n' :: ·)) := by
    rw [← String.ofList_append, Text.flatMap_newline hmessage, String.ofList_toList]
  rw [Report.toList_text, List.append_assoc, List.singleton_append, Text.lines_append_newline,
    Text.newlinePieces_append hhead, Text.newlinePieces, hmessage, List.modifyHead_cons,
    List.map_cons, hfirst, hmore, List.foldl_append, List.foldl_cons,
    addLine_of_diagnostic? (h.diagnostic?_first hbase first), foldl_addLine_continues hcontinues,
    Report.diagnostic, hall]
  rfl

/-- **Any other line is passed over.** -/
theorem foldl_addLine_note {line : String} (h : (Item.note line).Readable base) :
    (Text.lines ((line ++ "\n").toList ++ rest)).foldl (addLine base) found =
      (Text.lines rest).foldl (addLine base) found := by
  obtain ⟨hnewline, hhead, hplain⟩ := h
  obtain ⟨ending, hline⟩ := Text.dropReturn_isPrefix line.toList
  have htext : (line ++ "\n").toList ++ rest = line.toList ++ '\n' :: rest := by simp
  rw [htext, Text.lines_append_newline, Text.newlinePieces_eq_singleton hnewline, List.foldl_append]
  refine congrArg (List.foldl _ · _) (addLine_eq_self (fun hdiagnostic => ?_) (fun hspace => ?_))
  · exact hplain (hline ▸ hdiagnostic.append ending)
  · rw [← hline, List.head?_append, hspace] at hhead
    exact hhead rfl

/-- What is found in an item. -/
theorem foldl_addLine_item (hbase : base.isAbsolute = true) {item : Item}
    (h : item.Readable base) :
    (Text.lines (item.text.toList ++ rest)).foldl (addLine base) found =
      (Text.lines rest).foldl (addLine base) (item.diagnostic?.toList ++ found) := by
  cases item with
  | report content => exact foldl_addLine_report hbase h
  | note line => exact foldl_addLine_note h

/-- What is found in all items, one after the other. -/
theorem foldl_addLine_printed (hbase : base.isAbsolute = true)
    (h : ∀ item ∈ items, item.Readable base) :
    (Text.lines (printed items).toList).foldl (addLine base) found =
      (items.filterMap Item.diagnostic?).reverse ++ found := by
  induction items generalizing found with
  | nil => rfl
  | cons item items ih =>
    obtain ⟨hitem, hitems⟩ := List.forall_mem_cons.mp h
    have htext : (printed (item :: items)).toList = item.text.toList ++ (printed items).toList := by
      rw [printed, List.map_cons, String.join_cons, String.toList_append, printed]
    rw [htext, foldl_addLine_item hbase hitem, ih hitems]
    cases hdiagnostic : item.diagnostic? with
    | none => rw [List.filterMap_cons_none hdiagnostic, Option.toList_none, List.nil_append]
    | some diagnostic =>
      rw [List.filterMap_cons_some hdiagnostic, Option.toList_some, List.reverse_cons,
        List.append_assoc]

/-! ### What is read -/

/-- The error for a diagnostic on a program's own file: it points at the template. -/
def ownError (program : Program) (diagnostic : EngineDiagnostic) : TemplateError :=
  match program.origin? diagnostic.line with
  | some origin =>
    if origin.isContract then
      ⟨.typeCheck, program.template, none, diagnostic.message, diagnostic.code⟩
    else ⟨.typeCheck, origin.file, some origin.line, diagnostic.message, diagnostic.code⟩
  | none =>
    ⟨.typeCheck, program.template, none, "No mapping found for generated line " ++
      toString diagnostic.line ++ ": " ++ diagnostic.message, diagnostic.code⟩

/-- A diagnostic is moved if it is on the file of the program, and stays where it is otherwise. -/
theorem remap_eq_ite {d : Disk} {program : Program} {file : Path}
    (hdiagnostic : diagnostic.file.normalize = diagnostic.file) (hfile : file.normalize = file) :
    diagnostic.remap d program file =
      if diagnostic.file = file then ownError program diagnostic
      else ⟨.typeCheck, diagnostic.file, some diagnostic.line, diagnostic.message,
        diagnostic.code⟩ := by
  have hsame := EngineDiagnostic.sameFile_eq_true_iff (d := d) hdiagnostic hfile
  rw [EngineDiagnostic.remap, EngineDiagnostic.target]
  by_cases heq : diagnostic.file = file
  · rw [hsame.mpr heq, if_pos heq, ownError]
    cases program.origin? diagnostic.line with
    | none => rfl
    | some origin => cases hcontract : origin.isContract <;> simp [hcontract]
  · rw [Bool.eq_false_iff.mpr (mt hsame.mp heq), if_neg heq]
    rfl

/-- **Printed items are read back in order.** A file can be spelled as it is, and from the directory
of the compiler by going up to any directory that holds both. A compiler can report on the file that
it has for the program made from a template, and what is reported there is recognized as the
program's own, and nothing else is. -/
theorem readOutput_printed (hbase : base.isAbsolute = true)
    (h : ∀ item ∈ items, item.Readable base) :
    readOutput (printed items) base = items.filterMap Item.diagnostic? ∧
      (∀ file, Nameable file → Spells base file file ∧
        ∀ common below rest, Disk.namesAfter [] base.pieces = below ++ common →
          Disk.namesAfter [] file.pieces = rest ++ common → rest ++ below ≠ [] →
            (upAndDown below.length rest.reverse).isAbsolute = false ∧
              Spells base file (upAndDown below.length rest.reverse)) ∧
      ∀ (compiler : Compiler) (template : Path), Nameable compiler.temporary →
        Nameable (compiler.programFile template) ∧
        ∀ report, Item.report report ∈ items → ∀ (d : Disk) (program : Program),
          report.diagnostic.remap d program (compiler.programFile template) =
            if report.file = compiler.programFile template then ownError program report.diagnostic
            else ⟨.typeCheck, report.file, some report.line, report.message, some report.code⟩ := by
  refine ⟨?_, fun file hfile => ⟨hfile.spells_self, fun _ _ _ => hfile.spells_upAndDown⟩, ?_⟩
  · rw [readOutput, foldl_addLine_printed hbase h, List.append_nil, List.reverse_reverse]
  · intro compiler template htemporary
    have hfile := nameable_programFile compiler htemporary template
    refine ⟨hfile, fun report hreport d program => ?_⟩
    have hreported : Nameable report.file := (h _ hreport).file
    exact remap_eq_ite hreported.normal hfile.normal

/-- A report on a program, one on a file beside the project, and a summary. -/
def sampleItems : List Item :=
  [.report ⟨⟨"/p/.tmp/show.pug.ts"⟩, ⟨".tmp/show.pug.ts"⟩, 4, 9, 2339, .error,
      "Property 'nmae' does not exist."⟩,
    .report ⟨⟨"/types(1,2)/user.ts"⟩, ⟨"../types(1,2)/user.ts"⟩, 1, 1, 2322, .warning,
      "Type 'string' is not assignable.\n  Types of property 'id' are incompatible."⟩,
    .note "Found 2 errors."]

theorem readable_sampleItems : ∀ item ∈ sampleItems, item.Readable ⟨"/p"⟩ := by
  have hspells : ∀ file written : Path, '\n' ∉ written.text.toList → ':' ∉ written.text.toList →
      written.text ≠ "" →
      Disk.namesAfter (if written.isAbsolute then [] else ["p"]) written.pieces =
        Disk.namesAfter [] file.pieces → Spells ⟨"/p"⟩ file written :=
    fun file written hnewline hcolon hne hleads => ⟨hne, hleads, fun piece hpiece =>
      Or.inr ((plain_of_notMem hnewline hcolon).of_part (Text.isInfix_of_mem_splitAtEach hpiece))⟩
  have hends : ∀ text last, text.getLast? = some last → Text.isBlank last = false →
      EndsUnblank text := fun text last hlast hblank c hc => by
    rw [hlast] at hc
    cases hc
    exact hblank
  have hcontinues : Continues "  Types of property 'id' are incompatible.".toList :=
    ⟨rfl, hends _ '.' rfl rfl, (Unmarked.of_notMem (by decide)).not_isDiagnosticLine⟩
  have hone : Text.newlinePieces "Property 'nmae' does not exist.".toList =
      ["Property 'nmae' does not exist.".toList] := by decide
  have htwo : Text.newlinePieces
      "Type 'string' is not assignable.\n  Types of property 'id' are incompatible.".toList =
      ["Type 'string' is not assignable.".toList,
        "  Types of property 'id' are incompatible.".toList] := by decide
  simp only [sampleItems, List.forall_mem_cons]
  refine ⟨?_, ?_, ?_, fun _ hnil => absurd hnil List.not_mem_nil⟩
  · refine ⟨⟨by decide, by decide, plain_of_notMem (by decide) (by decide)⟩,
      hspells _ _ (by decide) (by decide) (by decide) (by decide), by decide, by decide, by decide,
      ?_, ?_⟩
    · rw [hone]
      exact fun first hfirst => by cases hfirst; exact hends _ '.' rfl rfl
    · rw [hone]
      simp
  · refine ⟨⟨by decide, by decide, plain_of_notMem (by decide) (by decide)⟩,
      hspells _ _ (by decide) (by decide) (by decide) (by decide), by decide, by decide, by decide,
      ?_, ?_⟩
    · rw [htwo]
      exact fun first hfirst => by cases hfirst; exact hends _ '.' rfl rfl
    · rw [htwo]
      exact List.forall_mem_singleton.mpr hcontinues
  · exact ⟨by decide, by decide, (Unmarked.of_notMem (by decide)).not_isDiagnosticLine⟩

theorem readOutput_printed_sampleItems :
    (∀ item ∈ sampleItems, item.Readable ⟨"/p"⟩) ∧
      readOutput (printed sampleItems) ⟨"/p"⟩ =
        [⟨⟨"/p/.tmp/show.pug.ts"⟩, 4, 9, some 2339, .error, "Property 'nmae' does not exist."⟩,
          ⟨⟨"/types(1,2)/user.ts"⟩, 1, 1, some 2322, .warning,
            "Type 'string' is not assignable.\n  Types of property 'id' are incompatible."⟩] ∧
      EngineDiagnostic.remap (.blank 0)
          ⟨⟨"/p/.tmp/show.pug.ts"⟩, 4, 9, some 2339, .error, "Property 'nmae' does not exist."⟩
          ⟨⟨"/p/show.pug"⟩, List.replicate 4 ⟨[], ⟨"/p/layout.pug"⟩, 7⟩⟩
          (Compiler.programFile ⟨⟨"tsc"⟩, ⟨"/p"⟩, ⟨"/p/.tmp"⟩, none⟩ ⟨"/p/show.pug"⟩) =
        ⟨.typeCheck, ⟨"/p/layout.pug"⟩, some 7, "Property 'nmae' does not exist.", some 2339⟩ := by
  have hbase : (⟨"/p"⟩ : Path).isAbsolute = true := by decide
  obtain ⟨hread, -, hown⟩ := readOutput_printed hbase readable_sampleItems
  have htemporary : Nameable ⟨"/p/.tmp"⟩ :=
    ⟨by decide, by decide, plain_of_notMem (by decide) (by decide)⟩
  refine ⟨readable_sampleItems, hread.trans rfl, ?_⟩
  obtain ⟨-, hremap⟩ := hown ⟨⟨"tsc"⟩, ⟨"/p"⟩, ⟨"/p/.tmp"⟩, none⟩ ⟨"/p/show.pug"⟩ htemporary
  refine (hremap _ List.mem_cons_self _ _).trans ?_
  rw [if_pos (by decide)]
  rfl

end Engine

end PugContracts
