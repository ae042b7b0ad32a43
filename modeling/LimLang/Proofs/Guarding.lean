import LimLang.Ansi
import LimLang.Proofs.Reporting

/-! # Guarded actions

What stops an action is written by the reporter, and either goes no further or passes on.  The guard words
a fault by a template which the fault's own label and detail are parts of, and fills it with no
arguments.

Without arguments a template can be filled only if it is a text with its braces doubled, and filling it
gives that text (`Template.fill_nil_iff`).  Errors of programs have their braces doubled, so they are
worded as they are.  Faults do not: a fault is reported as it is exactly if there is no brace in it.  If
all its braces are doubled, they are halved in the report.  If not, nothing is written, and the fault of
the template passes on in place of the fault that was to be reported.
-/
namespace LimLang

/-! ## Templates without arguments -/

namespace Template

variable {expand : Counting → List Char → Except TemplateFault (List Char × Counting)}
  {counting counting' : Counting} {cs out : List Char} {ps : List TemplatePiece}

/-- A brace is written twice, any other character once. -/
def doubled (c : Char) : List Char :=
  if c = '\x7b' ∨ c = '\x7d' then [c, c] else [c]

theorem toList_escape (s : String) : (escape s).toList = s.toList.flatMap doubled := by
  rw [escape, String.toList_ofList]
  rfl

/-- A text in which every `c` is replaced by two. -/
def replaceDoubled (c : Char) (s : String) : String :=
  String.ofList (s.toList.flatMap fun d => if d = c then [c, c] else [d])

/-- **The braces can be doubled one kind after the other.** -/
theorem escape_eq_replaceDoubled (s : String) :
    escape s = replaceDoubled '\x7d' (replaceDoubled '\x7b' s) := by
  rw [← String.toList_inj, toList_escape, replaceDoubled, replaceDoubled, String.toList_ofList,
    String.toList_ofList, List.flatMap_assoc]
  congr 1
  funext c
  by_cases ho : c = '\x7b'
  · subst ho
    rfl
  · by_cases hc : c = '\x7d'
    · subst hc
      rfl
    · simp [doubled, ho, hc]

theorem length_le_flatMap_doubled (cs : List Char) : cs.length ≤ (cs.flatMap doubled).length := by
  induction cs with
  | nil => simp
  | cons c cs ih =>
    rw [List.flatMap_cons, List.length_append, List.length_cons, doubled]
    split <;> simp only [List.length_cons, List.length_nil] <;> omega

/-- A text without braces is left as it is by the doubling of braces, and no other text is. -/
theorem escape_eq_self_iff {s : String} :
    escape s = s ↔ '\x7b' ∉ s.toList ∧ '\x7d' ∉ s.toList := by
  rw [← String.toList_inj, toList_escape]
  induction s.toList with
  | nil => simp
  | cons c cs ih =>
    have hlength := length_le_flatMap_doubled cs
    by_cases hbrace : c = '\x7b' ∨ c = '\x7d'
    · -- The text grows with the first brace and never shrinks again.
      have hgrows : (c :: cs).flatMap doubled ≠ c :: cs := by
        rw [List.flatMap_cons, doubled, if_pos hbrace]
        intro h
        have := congrArg List.length h
        simp only [List.length_append, List.length_cons, List.length_nil] at this
        omega
      grind
    · rw [List.flatMap_cons, doubled, if_neg hbrace]
      grind

/-- Inside a field, nothing is running text. -/
theorem exists_piecesFrom_cons (mode : Mode) (h : mode ≠ .text) (cs : List Char) :
    ∃ piece ps, piecesFrom mode cs = piece :: ps ∧ ∀ c, piece ≠ .char c := by
  fun_induction piecesFrom mode cs <;> simp_all

theorem eq_flatMap_of_piecesFrom {mode : Mode} (hmode : mode = .text)
    (h : piecesFrom mode cs = out.map .char) : cs = out.flatMap doubled := by
  fun_induction piecesFrom mode cs generalizing out with
  | case1 => rw [List.map_eq_nil_iff.1 h.symm, List.flatMap_nil]
  | case2 cs ih =>
    obtain ⟨c, rest, rfl, hc, hrest⟩ := List.map_eq_cons_iff.1 h.symm
    cases hc
    rw [List.flatMap_cons, ← ih rfl hrest.symm]
    rfl
  | case4 cs =>
    -- A field begins, and what a field begins with is never running text.
    obtain ⟨piece, ps, hcons, hpiece⟩ := exists_piecesFrom_cons (.field []) (by simp) cs
    rw [hcons] at h
    obtain ⟨c, rest, -, hc, -⟩ := List.map_eq_cons_iff.1 h.symm
    exact absurd hc.symm (hpiece c)
  | case5 cs ih =>
    obtain ⟨c, rest, rfl, hc, hrest⟩ := List.map_eq_cons_iff.1 h.symm
    cases hc
    rw [List.flatMap_cons, ← ih rfl hrest.symm]
    rfl
  | case7 c cs _ _ ho _ hc ih =>
    obtain ⟨d, rest, rfl, hd, hrest⟩ := List.map_eq_cons_iff.1 h.symm
    cases hd
    rw [List.flatMap_cons, ← ih rfl hrest.symm, doubled, if_neg (not_or.2 ⟨ho, hc⟩)]
    rfl
  | case3 => cases out <;> cases h
  | case6 => cases out <;> cases h
  | _ => cases hmode

/-- No field can be filled without arguments. -/
theorem exists_fillField_nil
    (expand : Counting → List Char → Except TemplateFault (List Char × Counting)) (counting : Counting)
    (name : List Char) (conversion : Option Char) (format : List Char) :
    ∃ fault, fillField expand [] counting name conversion format = .error fault := by
  unfold fillField
  dsimp only
  generalize place counting _ = found
  cases found with
  | error fault => exact ⟨fault, rfl⟩
  | ok found => exact ⟨.noArgument found.1, rfl⟩

/-- **What can be filled without arguments** is running text. -/
theorem fillPieces_nil_iff :
    fillPieces expand [] counting ps = .ok (out, counting') ↔
      ps = out.map .char ∧ counting' = counting := by
  refine ⟨fun h => ?_, ?_⟩
  · induction ps generalizing out counting' with
    | nil =>
      cases h
      exact ⟨rfl, rfl⟩
    | cons piece ps ih =>
      cases piece with
      | broken fault => cases h
      | field name conversion format =>
        obtain ⟨fault, hfault⟩ := exists_fillField_nil expand counting name conversion format
        rw [fillPieces, hfault] at h
        cases h
      | char c =>
        rw [fillPieces] at h
        cases hrest : fillPieces expand [] counting ps with
        | error fault =>
          rw [hrest] at h
          cases h
        | ok rest =>
          rw [hrest] at h
          cases h
          obtain ⟨hps, hcounting⟩ := ih hrest
          exact ⟨by rw [hps, List.map_cons], hcounting⟩
  · rintro ⟨rfl, rfl⟩
    exact fillPieces_chars expand [] counting' out

/-- **Without arguments, filling undoes the doubling of braces and does nothing else.** -/
theorem fill_nil_iff {template text : String} : fill template [] = .ok text ↔ template = escape text := by
  refine ⟨fun h => ?_, fun h => by rw [h, fill_escape]⟩
  unfold fill at h
  cases hfill : fillWithin [] 2 .undecided template.toList with
  | error fault =>
    rw [hfill] at h
    cases h
  | ok filled =>
    rw [hfill] at h
    cases h
    obtain ⟨hpieces, -⟩ := fillPieces_nil_iff.1 hfill
    rw [← String.toList_inj, toList_escape, String.toList_ofList]
    exact eq_flatMap_of_piecesFrom rfl hpieces

end Template

/-- A message without arguments looks the same with and without colours. -/
theorem Diagnostic.fill_nil [Painter] (colour : Bool) (template : String) :
    Diagnostic.fill colour template [] =
      (Template.fill template []).map fun text => [.either text text] := by
  unfold Diagnostic.fill
  rw [List.map_nil]
  cases Template.fill template [] <;> rfl

/-! ## Errors of programs -/

theorem Message.text_either (text coloured : String) : Message.text [.either text coloured] = text := by
  simp [Message.text, Fragment.text]

theorem Message.shown_either_self [Painter] (text : String) (colour : Bool) :
    Message.shown [.either text text] colour = text := by
  simp [Message.shown, Fragment.shown]

/-- **An error of a program is worded as it is.**  Whatever its message is, there is a complaint about it,
whose text is the message, and so is what it shows, with and without colours.  That is because doubling
first the opening and then the closing braces of a text gives a template that is filled with the text. -/
theorem Complaint.runtime_verbatim (message : String) :
    ∃ c, Complaint.runtime message = .ok c ∧ c.summary.text = message ∧
      (∀ [Painter] (colour : Bool), c.summary.message.shown colour = message) ∧
      Template.fill
        (Template.replaceDoubled '\x7d' (Template.replaceDoubled '\x7b' message)) [] = .ok message := by
  have hfill := Template.fill_escape message []
  refine ⟨{ summary := .plain .runtime [.either message message] }, ?_, Message.text_either _ _,
    fun colour => Message.shown_either_self message colour, ?_⟩
  · unfold runtime Diagnostic.ofTemplate
    dsimp only
    rw [@Diagnostic.fill_nil .plain, hfill]
    rfl
  · rw [← Template.escape_eq_replaceDoubled, hfill]

/-! ## Faults -/

/-- How a fault is worded that the interpreter does not know how to handle. -/
def Fault.wording (fault : Fault) : String :=
  "unknown error: '" ++ fault.label ++ ": " ++ fault.detail ++ "'"

/-- A fault without braces. -/
def Fault.Braceless (fault : Fault) : Prop :=
  '\x7b' ∉ fault.label.toList ++ fault.detail.toList ∧ '\x7d' ∉ fault.label.toList ++ fault.detail.toList

/-- The complaint that something went wrong inside the interpreter. -/
def Complaint.internal (text : String) : Complaint where
  summary :=
    { Diagnostic.plain .general [.either text text] with showsExcerpt := true, isInternal := true }

theorem Complaint.unknown_eq (fault : Fault) :
    Complaint.unknown fault = (Template.fill fault.wording []).map Complaint.internal := by
  unfold unknown Diagnostic.ofTemplate Fault.wording
  dsimp only
  rw [@Diagnostic.fill_nil .plain]
  generalize Template.fill _ [] = filled
  cases filled <;> rfl

theorem Fault.braceless_iff {fault : Fault} :
    fault.Braceless ↔ fault.wording = Template.escape fault.wording := by
  rw [eq_comm, Template.escape_eq_self_iff]
  unfold Fault.Braceless Fault.wording
  simp only [String.toList_append, List.mem_append]
  have hframe : ∀ s ∈ ["unknown error: '", ": ", "'"], '\x7b' ∉ s.toList ∧ '\x7d' ∉ s.toList := by
    decide
  grind

theorem Fault.internal_wording (fault : Fault) :
    "[internal] error: " ++ fault.wording ++ "\n" =
      "[internal] error: unknown error: '" ++ fault.label ++ ": " ++ fault.detail ++ "'\n" := by
  unfold Fault.wording
  generalize fault.label = label
  generalize fault.detail = detail
  rw [← String.toList_inj]
  simp

namespace Reporter

variable {r : Reporter} {fault : Fault} {text : String}

/-- Diagnostics as they are written, a line each. -/
def written (r : Reporter) (ds : List Diagnostic) : String :=
  String.join (ds.map fun d => r.format d .error ++ "\n")

/-- What an internal error is introduced by. -/
def internalLabel (r : Reporter) : String :=
  r.painter.paint r.colour .red "[internal] " ++ r.painter.paint r.colour .red "error: "

/-- **What is to become of an action that stopped short**, if complaints do not end the interpreter. -/
def due (r : Reporter) : Stop → Report
  | .complaint c => { output := r.written (c.details ++ [c.summary]), stop := none }
  | .interrupted =>
      { output := r.written [.plain .general [.plain "keyboard interrupt"]], stop := none }
  | .crash .tooDeep =>
      { output := r.written [.plain .general
          [.plain "maximum recursion depth exceeded during evaluation"]]
        stop := none }
  | .exit status => { output := "", stop := some (.exit status) }
  | .crash (.fault fault) =>
      { output := r.internalLabel ++ fault.wording ++ "\n", stop := some (.crash (.fault fault)) }

theorem complain_eq (hfatal : r.fatal = false) (c : Complaint) :
    r.complain c = { output := r.written (c.details ++ [c.summary]), stop := none } := by
  unfold complain written
  rw [hfatal, List.map_append, String.join_append, String.append_assoc, List.map_singleton]
  simp

theorem format_internal (text : String) :
    r.format (Complaint.internal text).summary .error = r.internalLabel ++ text := by
  unfold format Diagnostic.shown internalLabel
  simp [Complaint.internal, Diagnostic.plain, Message.shown_either_self, Severity.label, Severity.ink]

/-- A fault whose braces are all doubled is reported with half of them. -/
theorem guard_of_wording_eq (hfatal : r.fatal = false) (h : fault.wording = Template.escape text) :
    r.guard (.crash (.fault fault)) =
      { output := r.internalLabel ++ text ++ "\n", stop := some (.crash (.fault fault)) } := by
  have hunknown : Complaint.unknown fault = .ok (.internal text) := by
    rw [Complaint.unknown_eq, Template.fill_nil_iff.2 h]
    rfl
  have hwritten : r.written ((Complaint.internal text).details ++ [(Complaint.internal text).summary]) =
      r.internalLabel ++ text ++ "\n" := by
    simp [written, Complaint.internal, ← format_internal]
  unfold guard
  simp only [hunknown, complain_eq hfatal, hwritten]
  rfl

/-- A fault whose braces are not all doubled is not reported, and another one passes on. -/
theorem exists_guard_of_wording_ne (r : Reporter) (h : ∀ text, fault.wording ≠ Template.escape text) :
    ∃ failure, r.guard (.crash (.fault fault)) =
      { output := "", stop := some (.crash (.fault (.template failure))) } := by
  cases hfill : Template.fill fault.wording [] with
  | ok text => exact absurd (Template.fill_nil_iff.1 hfill) (h text)
  | error failure =>
    refine ⟨failure, ?_⟩
    unfold guard
    simp only [Complaint.unknown_eq, hfill, Except.map]

/-- **A fault is reported as it is exactly if it has no braces.** -/
theorem guard_fault_eq_due_iff (hfatal : r.fatal = false) :
    r.guard (.crash (.fault fault)) = r.due (.crash (.fault fault)) ↔ fault.Braceless := by
  have hdue : r.due (.crash (.fault fault)) =
      { output := r.internalLabel ++ fault.wording ++ "\n", stop := some (.crash (.fault fault)) } := by
    unfold due
    rfl
  rw [Fault.braceless_iff, hdue]
  refine ⟨fun h => ?_, guard_of_wording_eq hfatal⟩
  by_cases hescape : ∃ text, fault.wording = Template.escape text
  · obtain ⟨text, htext⟩ := hescape
    rw [guard_of_wording_eq hfatal htext] at h
    have houtput : r.internalLabel ++ text ++ "\n" = r.internalLabel ++ fault.wording ++ "\n" :=
      congrArg Report.output h
    have hsame : text = fault.wording := by simpa using houtput
    rw [← hsame] at htext ⊢
    exact htext
  · -- Nothing is written then, and something is due.
    obtain ⟨failure, hguard⟩ := exists_guard_of_wording_ne r fun text htext => hescape ⟨text, htext⟩
    rw [hguard] at h
    have houtput : "" = r.internalLabel ++ fault.wording ++ "\n" := congrArg Report.output h
    simp at houtput

theorem internalLabel_of_colour (hcolour : r.colour = false) : r.internalLabel = "[internal] error: " := by
  rw [internalLabel, hcolour, r.painter.paint_off, r.painter.paint_off]
  rfl

/-- **The guard does what is due, but for faults with braces.**  Under a reporter that is not fatal,
complaints, interrupts and too deep nesting are written and go no further, and an exit passes on with
nothing written.  A fault is written in one line, as it is, and passes on, exactly if it has no braces.
If its braces are all doubled, half of them are written, and the fault passes on.  Otherwise nothing is
written, and a fault of the template passes on. -/
theorem guard_eq_due_iff (hfatal : r.fatal = false) (stop : Stop) :
    (r.guard stop = r.due stop ↔ ∀ fault, stop = .crash (.fault fault) → fault.Braceless) ∧
      ∀ fault, stop = .crash (.fault fault) →
        (r.colour = false → r.due stop =
          { output := "[internal] error: unknown error: '" ++ fault.label ++ ": " ++ fault.detail ++ "'\n"
            stop := some stop }) ∧
        (∀ text, fault.wording = Template.escape text → r.guard stop =
          { output := r.internalLabel ++ text ++ "\n", stop := some stop }) ∧
        ((∀ text, fault.wording ≠ Template.escape text) → ∃ failure, r.guard stop =
          { output := "", stop := some (.crash (.fault (.template failure))) }) := by
  refine ⟨?_, ?_⟩
  · by_cases hfault : ∃ fault, stop = .crash (.fault fault)
    · obtain ⟨fault, rfl⟩ := hfault
      simp [guard_fault_eq_due_iff hfatal]
    · have hdue : r.guard stop = r.due stop := by
        unfold guard due
        split <;> simp_all [complain_eq, Complaint.general]
      simp_all
  · rintro fault rfl
    refine ⟨fun hcolour => ?_, fun text => guard_of_wording_eq hfatal, exists_guard_of_wording_ne r⟩
    unfold due
    dsimp only
    rw [internalLabel_of_colour hcolour, Fault.internal_wording]

/-- A fault that mentions a bracket is reported as it is. -/
theorem guard_eq_due_iff_bracket :
    guard { fatal := false } (.crash (.fault (.other "ValueError" "unexpected ("))) =
      { output := "[internal] error: unknown error: 'ValueError: unexpected ('\n"
        stop := some (.crash (.fault (.other "ValueError" "unexpected ("))) } := by
  obtain ⟨hiff, hfault⟩ := guard_eq_due_iff (r := { fatal := false }) rfl
    (.crash (.fault (.other "ValueError" "unexpected (")))
  obtain ⟨hdue, -, -⟩ := hfault _ rfl
  rw [hiff.2, hdue rfl]
  · rfl
  · rintro fault ⟨⟩
    unfold Fault.Braceless
    decide

/-- **A fault that mentions a field in braces is not reported**, and another fault takes its place. -/
theorem not_due_field :
    guard { fatal := false } (.crash (.fault (.other "ValueError" "unexpected \x7bname\x7d"))) =
        { output := "", stop := some (.crash (.fault (.template (.noName "name")))) } ∧
      guard { fatal := false } (.crash (.fault (.other "ValueError" "unexpected \x7bname\x7d"))) ≠
        due { fatal := false } (.crash (.fault (.other "ValueError" "unexpected \x7bname\x7d"))) := by
  have hguard : guard { fatal := false }
      (.crash (.fault (.other "ValueError" "unexpected \x7bname\x7d"))) =
        { output := "", stop := some (.crash (.fault (.template (.noName "name")))) } := by
    decide +kernel
  refine ⟨hguard, ?_⟩
  rw [hguard]
  decide +kernel

end Reporter

end LimLang
