import LimLang.Ansi
import LimLang.Proofs.Concatenation
import LimLang.Proofs.Refinement
import LimLang.Proofs.SessionSteps
import LimLang.Proofs.TandemParsers

/-! # Running in pieces

Two texts may be added to a session and run one after the other, or they may be joined by a newline,
added and run at once.  If nothing is reported of either, and the first is run through, the session
comes to the same end: what is written, what stops it and the whole world are the same
(`Session.run_pieces`).  A statement of the first text that fails or returns would end the joined
program too early, so there must be none.

The second text is added with its lines numbered on, and so its tokens stand where they stand in the
joined text.  That nothing is wrong with it does not depend on the numbers
(`Source.parse_renumbered`), since the parser looks at kinds and texts only.
-/
namespace LimLang

open EStateM (Result)

/-! ## Numbering lines -/

namespace Lexeme

/-- What is seen of tokens without their places does not depend on where the first stands. -/
theorem map_see_place (p q : Pos) (ls : List Lexeme) :
    ((place p ls).filterMap tokenAt?).map Sight.placeless.see =
      ((place q ls).filterMap tokenAt?).map Sight.placeless.see := by
  induction ls generalizing p q with
  | nil => rfl
  | cons l ls ih =>
    rw [place, place, List.filterMap_cons, List.filterMap_cons]
    cases hl : l.token? with
    | none => simpa [tokenAt?, hl] using ih _ _
    | some contents => simpa [tokenAt?, hl, Sight.placeless] using ih _ _

end Lexeme

theorem Parse.exists_program {limits : Limits} {s t : ParseState} {tree : Node}
    (h : program limits s = .ok tree t) : ∃ nodes, tree = .program nodes := by
  rw [program_eq] at h
  cases hrun : toEnd limits s with
  | error crash u =>
    rw [hrun] at h
    cases h
  | ok nodes u =>
    rw [hrun] at h
    cases h
    exact ⟨nodes, rfl⟩

namespace Source

variable {s t : Source} {limits : Limits}

/-- What is not reported of a text is not reported of it if its lines have other numbers. -/
theorem filterMap_renumbered {β : Type} {f g : Pos × Lexeme → Option β} (htext : s.text = t.text)
    (hfg : ∀ p q l, f (p, l) = none → g (q, l) = none) (h : s.lexemes.filterMap f = []) :
    t.lexemes.filterMap g = [] := by
  rw [List.filterMap_eq_nil_iff] at h ⊢
  rintro ⟨q, l⟩ hmem
  have hcut : l ∈ Lexeme.cut s.text := htext ▸ Lexeme.mem_of_mem_place hmem
  obtain ⟨p, hplaced⟩ := Lexeme.exists_mem_place s.start hcut
  exact hfg p q l (h _ hplaced)

theorem lexicalErrors_renumbered (htext : s.text = t.text) (h : s.lexicalErrors = []) :
    t.lexicalErrors = [] :=
  filterMap_renumbered htext (fun p q l hl => by cases l <;> first | rfl | cases hl) h

theorem warnings_renumbered (htext : s.text = t.text) (h : s.warnings = []) : t.warnings = [] :=
  filterMap_renumbered htext (fun p q l hl => by cases l <;> first | rfl | cases hl) h

theorem map_see_tokens (htext : s.text = t.text) :
    s.tokens.map Sight.placeless.see = t.tokens.map Sight.placeless.see := by
  rw [tokens, tokens, List.map_append, List.map_append, lexemes, lexemes, htext,
    Lexeme.map_see_place s.start t.start]
  rfl

/-- **A text that nothing is reported of** is such a text wherever it starts. -/
theorem parse_renumbered {parsed : Parsed} (htext : s.text = t.text)
    (h : s.parse limits = .ok parsed) (he : parsed.errors = []) (hw : parsed.warnings = []) :
    ∃ tree u, Parse.program limits (Parse.initial t.tokens t.endToken) = .ok tree u ∧
      u.findings = [] ∧ t.lexicalErrors = [] ∧ t.warnings = [] := by
  obtain ⟨hlexical, hwarnings, u, hrun, hu⟩ := of_errors_eq_nil h he
  rw [hw] at hwarnings
  have hlast : Sight.placeless.see s.endToken = Sight.placeless.see t.endToken := rfl
  obtain ⟨tree, u', hrun', -, hfindings⟩ :=
    Parse.program_look (map_see_tokens htext) hlast rfl (Nat.le_refl _) hrun
  rw [hu, List.map_nil] at hfindings
  exact ⟨tree, u', hrun', List.map_eq_nil_iff.1 hfindings.symm,
    lexicalErrors_renumbered htext hlexical, warnings_renumbered htext hwarnings⟩

/-- What is parsed of two texts that nothing is reported of, of the second with its lines numbered on
and of the two joined. -/
theorem parse_pieces {text more : List Char} {first second : Parsed}
    (hfirst : parse { text := text } limits = .ok first)
    (hsecond : parse { text := more } limits = .ok second)
    (hfirstErrors : first.errors = []) (hfirstWarnings : first.warnings = [])
    (hsecondErrors : second.errors = []) (hsecondWarnings : second.warnings = []) :
    ∃ nodes others, first.program = .program nodes ∧
      parse { text := more, firstLine := 2 + text.count '\n' } limits =
        .ok { program := .program others, errors := [], warnings := [] } ∧
      parse { text := text ++ '\n' :: more } limits =
        .ok { program := .program (nodes ++ others), errors := [], warnings := [] } := by
  let s : Source := { text := text }
  have hbehind : s.behind more = { text := more, firstLine := 2 + text.count '\n' } := by
    unfold behind
    congr 1
    show (1 : Int) + text.count '\n' + 1 = _
    omega
  obtain ⟨hlexical, hwarn, t, hrun, ht⟩ := of_errors_eq_nil hfirst hfirstErrors
  rw [hfirstWarnings] at hwarn
  obtain ⟨tree, u, hmore, hu, hlexical', hwarn'⟩ :=
    parse_renumbered (s := { text := more }) (t := s.behind more) rfl hsecond hsecondErrors
      hsecondWarnings
  have hclosed : s.IsClosed := isClosed_of_errors hlexical hwarn
  obtain ⟨nodes, hnodes⟩ := Parse.exists_program hrun
  obtain ⟨others, rfl⟩ := Parse.exists_program hmore
  have hjoined : Parse.program limits (Parse.initial (s.join more).tokens (s.join more).endToken) =
      .ok (.program (nodes ++ others)) u := by
    rw [program_join more hlexical hwarn hrun ht, hmore, hnodes]
    rfl
  have herrors : (s.join more).lexicalErrors = [] := by
    rw [lexicalErrors_join more hclosed, hlexical, hlexical', List.append_nil]
  have hwarnings : (s.join more).warnings = [] := by
    rw [warnings_join more hclosed, hwarn, hwarn', List.append_nil]
  refine ⟨nodes, others, hnodes, ?_, ?_⟩
  · rw [← hbehind]
    exact parse_faultless hlexical' hwarn' hmore hu
  · show parse (s.join more) limits = _
    exact parse_faultless herrors hwarnings hjoined hu

end Source

/-! ## Statements one after the other -/

namespace Eval

variable {evaluate : Node → Eval Value} {last v : Value} {nodes : List Node} {w w' : World}

theorem program_append_crash {crash : Crash} (more : List Node)
    (h : block evaluate last nodes w = .error crash w') :
    program evaluate last (nodes ++ more) w = .error crash w' := by
  induction nodes generalizing last w with
  | nil =>
    unfold block at h
    split at h <;> cases h
  | cons node nodes ih =>
    change EStateM.bind (evaluate node) _ w = _ at h
    show EStateM.bind (evaluate node) _ w = _
    unfold EStateM.bind at h ⊢
    cases hn : evaluate node w with
    | error crash w₁ =>
      rw [hn] at h
      exact h
    | ok u w₁ =>
      rw [hn] at h
      cases u with
      | returned id value => cases h
      | error message => cases h
      | _ => exact ih h

/-- **Statements that are run through hand over to those that follow**, which start where they ended. -/
theorem program_append (more : List Node) (hlast : last.isSignal = false) (hv : v.isSignal = false)
    (h : block evaluate last nodes w = .ok v w') :
    ∃ u, program evaluate last (nodes ++ more) w = program evaluate u more w' ∧
      program evaluate u [] w' = .ok v w' := by
  induction nodes generalizing last w with
  | nil =>
    unfold block at h
    split at h
    · cases h
      exact ⟨.absent, rfl, rfl⟩
    · cases h
      exact ⟨v, rfl, by cases v <;> first | rfl | contradiction⟩
  | cons node nodes ih =>
    change EStateM.bind (evaluate node) _ w = _ at h
    show ∃ u, EStateM.bind (evaluate node) _ w = _ ∧ _
    unfold EStateM.bind at h ⊢
    cases hn : evaluate node w with
    | error crash w₁ =>
      rw [hn] at h
      cases h
    | ok u w₁ =>
      rw [hn] at h
      cases u with
      | returned id value =>
        cases h
        cases hv
      | error message =>
        cases h
        cases hv
      | _ => exact ih rfl h

end Eval

/-- **Two programs in one**: either the first crashes, and so does the whole, or the second starts in
the world that the first leaves.  If there is nothing in the second, the whole has the value of the
first. -/
theorem eval_program_append {room : Room} {depth : Nat} {scope : Scope} {w : World}
    (nodes more : List Node)
    (hthrough : ∀ v w', Eval.block (eval room (depth - 1) · scope) .absent nodes w = .ok v w' →
      v.isSignal = false) :
    (∃ crash w', eval room depth (.program nodes) scope w = .error crash w' ∧
      eval room depth (.program (nodes ++ more)) scope w = .error crash w') ∨
    ∃ v w', v.isSignal = false ∧ eval room depth (.program nodes) scope w = .ok v w' ∧
      (eval room depth (.program (nodes ++ more)) scope w =
          eval room depth (.program more) scope w' ∨
        eval room depth (.program (nodes ++ more)) scope w = .ok v w' ∧
          eval room depth (.program more) scope w' = .ok .null w') := by
  cases depth with
  | zero => exact .inl ⟨.tooDeep, w, rfl, rfl⟩
  | succ depth =>
    let evaluate : Node → Eval Value := (eval room depth · scope)
    have hprogram : ∀ nodes w, eval room (depth + 1) (.program nodes) scope w =
        Eval.program evaluate .absent nodes w := fun _ _ => rfl
    simp only [hprogram]
    cases hrun : Eval.block evaluate .absent nodes w with
    | error crash w' =>
      have halone := Eval.program_append_crash [] hrun
      rw [List.append_nil] at halone
      exact .inl ⟨crash, w', halone, Eval.program_append_crash more hrun⟩
    | ok v w' =>
      have hv := hthrough v w' hrun
      obtain ⟨u, hwhole, hlast⟩ := Eval.program_append more rfl hv hrun
      obtain ⟨u', halone, hlast'⟩ := Eval.program_append [] rfl hv hrun
      rw [List.append_nil, hlast'] at halone
      refine .inr ⟨v, w', hv, halone, ?_⟩
      rw [hwhole]
      cases more with
      | nil => exact .inr ⟨hlast, rfl⟩
      | cons node more => exact .inl rfl

/-! ## Sessions -/

namespace Session

variable {s : Session} {limit : Nat}

/-- Adds a text and runs it. -/
def perform (text : String) (firstLine : Int) : SessionM Unit := do
  let _ ← add text firstLine
  run

/-- **A program is run through** in a session: none of its statements fails or returns. -/
def RunsThrough (s : Session) (program : Node) : Prop :=
  ∀ limit v w, s.chosenLimit = .ok limit →
    Eval.block (eval (s.host.room limit) (s.host.evaluationDepth limit - 1) · World.globalScope)
      .absent program.statements s.world = .ok v w → v.isSignal = false

/-- **Two actions end alike**: the same stops them, if anything does, and they leave the same world. -/
def EndAlike : Result Stop Session Unit → Result Stop Session Unit → Prop
  | .ok _ t, .ok _ t' => t.world = t'.world
  | .error stop t, .error stop' t' => stop = stop' ∧ t.world = t'.world
  | _, _ => False

theorem warned_of_nil (s : Session) {parsed : Parsed} (h : parsed.warnings = []) :
    s.warned parsed = s := by
  have htext : s.warningText parsed = "" := by
    unfold warningText
    rw [h]
    rfl
  have hwrite : s.world.write "" = s.world := by
    unfold World.write
    rw [String.append_empty]
  rw [warned, htext, hwrite]

section Perform
variable {text : String} {firstLine : Int} {parsed : Parsed}
  (hparse : Source.parse { text := text.toList, firstLine } s.host.limits = .ok parsed)
  (he : parsed.errors = [])
include hparse he

/-- Adding a text and running it evaluates its program. -/
theorem perform_eq (hw : parsed.warnings = []) (hq : s.queue = []) (hl : s.chosenLimit = .ok limit) :
    perform text firstLine s = s.concluded (evaluate s.host limit parsed.program s.world) := by
  unfold perform
  rw [bind_of_ok (add_wellFormed hparse he), run_added hq hl, evaluation, warned_of_nil s hw]

/-- Under a limit that cannot be set nothing is run. -/
theorem perform_unlimited {crash : Crash} (hw : parsed.warnings = [])
    (hl : s.chosenLimit = .error crash) :
    ∃ t, perform text firstLine s = .error (.crash crash) t ∧ t.world = s.world := by
  have hlimit : (s.added parsed).chosenLimit = .error crash := hl
  have hworld : (s.added parsed).world = s.world := by
    show (s.warned parsed).world = s.world
    rw [warned_of_nil s hw]
  refine ⟨s.added parsed, ?_, hworld⟩
  unfold perform
  rw [bind_of_ok (add_wellFormed hparse he)]
  unfold run
  simp only [hlimit]

end Perform

theorem endAlike_concluded (s t : Session) (r : Result Crash World Value) :
    EndAlike (s.concluded r) (t.concluded r) := by
  cases r with
  | error crash w => exact ⟨rfl, rfl⟩
  | ok value w => cases value <;> first | rfl | exact ⟨rfl, rfl⟩

/-- A value that is kept is the latest. -/
theorem getLast?_concluded {s' t t' : Session} {r : Result Crash World Value}
    (h : s.concluded r = .ok () t) (h' : s'.concluded r = .ok () t') (hkept : t.results ≠ s.results) :
    t'.results.getLast? = t.results.getLast? := by
  cases r with
  | error crash w => cases h
  | ok value w =>
    by_cases hnull : value = .null
    · subst hnull
      cases h
      exact absurd rfl hkept
    by_cases herror : ∃ message, value = .error message
    · obtain ⟨message, rfl⟩ := herror
      cases h
    · have hvalue := not_exists.1 herror
      rw [concluded_value _ w hnull hvalue] at h h'
      cases h
      cases h'
      rw [List.getLast?_concat, List.getLast?_concat]

theorem concluded_of_not_isSignal (s : Session) {value : Value} (w : World)
    (h : value.isSignal = false) :
    ∃ t, s.concluded (.ok value w) = .ok () t ∧ t.host = s.host ∧ t.world = w ∧ t.queue = s.queue ∧
      t.chosenLimit = s.chosenLimit := by
  cases value <;> first | exact ⟨_, rfl, rfl, rfl, rfl, rfl⟩ | cases h

/-- **Running in pieces is running at once.**  Nothing is reported of either of two texts, and the
first is run through in a session in which nothing waits.  Then to add and run them one after the
other, the lines of the second numbered on, ends like adding and running the two joined by a newline:
the same is written, the same stops the session, and all variables have the same values.  If the
second text has a value that is kept, it is the latest in both cases. -/
theorem run_pieces (s : Session) (text more : String) (first second : Parsed) (hqueue : s.queue = [])
    (hfirst : Source.parse { text := text.toList } s.host.limits = .ok first)
    (hsecond : Source.parse { text := more.toList } s.host.limits = .ok second)
    (hfirstErrors : first.errors = []) (hfirstWarnings : first.warnings = [])
    (hsecondErrors : second.errors = []) (hsecondWarnings : second.warnings = [])
    (hthrough : s.RunsThrough first.program) :
    EndAlike ((do perform text 1; perform more (2 + text.toList.count '\n')) s)
        (perform (text ++ "\n" ++ more) 1 s) ∧
      ∀ mid t t', perform text 1 s = .ok () mid →
        perform more (2 + text.toList.count '\n') mid = .ok () t →
        perform (text ++ "\n" ++ more) 1 s = .ok () t' →
        t.results ≠ mid.results → t'.results.getLast? = t.results.getLast? := by
  obtain ⟨nodes, others, hnodes, hmore, hwhole⟩ := Source.parse_pieces hfirst hsecond hfirstErrors
    hfirstWarnings hsecondErrors hsecondWarnings
  have htext : (text ++ "\n" ++ more).toList = text.toList ++ '\n' :: more.toList := by
    simp [String.toList_append]
  rw [← htext] at hwhole
  cases hlimit : s.chosenLimit with
  | error crash =>
    -- Neither the first text is run nor the two.
    obtain ⟨t, ht, hworld⟩ := perform_unlimited hfirst hfirstErrors hfirstWarnings hlimit
    obtain ⟨t', ht', hworld'⟩ := perform_unlimited hwhole rfl rfl hlimit
    rw [bind_of_error ht, ht']
    refine ⟨⟨rfl, hworld.trans hworld'.symm⟩, fun mid _ _ hmid => ?_⟩
    rw [ht] at hmid
    cases hmid
  | ok limit =>
    have hrun := perform_eq hfirst hfirstErrors hfirstWarnings hqueue hlimit
    have hrunWhole := perform_eq hwhole rfl rfl hqueue hlimit
    have hblock := fun v w => hthrough limit v w hlimit
    unfold evaluate at hrun hrunWhole
    rw [hnodes] at hblock hrun
    rcases eval_program_append nodes others hblock with
      ⟨crash, w, halone, hboth⟩ | ⟨v, w, hv, halone, hboth⟩
    · rw [halone] at hrun
      rw [hboth] at hrunWhole
      rw [bind_of_error hrun, hrunWhole]
      refine ⟨⟨rfl, rfl⟩, fun mid _ _ hmid => ?_⟩
      rw [hrun] at hmid
      cases hmid
    · obtain ⟨mid, hmid, hhost, hworld, hqueue', hlimit'⟩ := concluded_of_not_isSignal s w hv
      rw [halone, hmid] at hrun
      rw [← hhost] at hmore
      have hclosing := perform_eq (s := mid) hmore rfl rfl (hqueue'.trans hqueue)
        (hlimit'.trans hlimit)
      unfold evaluate at hclosing
      rw [hhost, hworld] at hclosing
      rw [bind_of_ok hrun, hclosing, hrunWhole]
      rcases hboth with hsame | ⟨hvalue, hnothing⟩
      · rw [hsame]
        refine ⟨endAlike_concluded mid s _, fun mid' t t' hmid' ht ht' hkept => ?_⟩
        rw [hrun] at hmid'
        cases hmid'
        rw [hclosing] at ht
        exact getLast?_concluded ht ht' hkept
      · -- There is nothing in the second text, so nothing is kept of it.
        rw [hvalue, hnothing, hmid]
        refine ⟨hworld.symm, fun mid' t t' hmid' ht _ hkept => ?_⟩
        rw [hrun] at hmid'
        cases hmid'
        rw [hclosing, hnothing] at ht
        cases ht
        exact absurd rfl hkept

/-- A variable is declared in the first text, on a line of its own, and read in the second. -/
theorem run_pieces_variable :
    ∃ (s : Session) (first second : Parsed), s = Session.initial {} terminal true (some 40) ∧
      Source.parse { text := "int x = 4\n".toList } s.host.limits = .ok first ∧
      Source.parse { text := "x + 1".toList } s.host.limits = .ok second ∧
      s.RunsThrough first.program ∧
      EndAlike ((do perform "int x = 4\n" 1; perform "x + 1" 3) s) (perform "int x = 4\n\nx + 1" 1 s) := by
  let s : Session := Session.initial {} terminal true (some 40)
  let first : Parsed := {
    program := .program [.declare { kind := .kwInt, text := "int", line := 1 } .int
      { token := { kind := .ident, text := "x", line := 1, col := 4 }, name := "x" }
      (.int { kind := .int, text := "4", line := 1, col := 8 } 4)]
    errors := Diagnostic.inOrder []
    warnings := [] }
  let second : Parsed := {
    program := .program [.expression { kind := .ident, text := "x", line := 1 }
      (.binary { kind := .plus, text := "+", line := 1, col := 2 }
        (.ident { token := { kind := .ident, text := "x", line := 1 }, name := "x" }) "+"
        (.int { kind := .int, text := "1", line := 1, col := 4 } 1))]
    errors := Diagnostic.inOrder []
    warnings := [] }
  have hfirst : Source.parse { text := "int x = 4\n".toList } s.host.limits = .ok first := by rfl
  have hsecond : Source.parse { text := "x + 1".toList } s.host.limits = .ok second := by rfl
  have hthrough : s.RunsThrough first.program := by
    intro limit v w hlimit hblock
    cases hlimit
    cases hblock
    rfl
  exact ⟨s, first, second, rfl, hfirst, hsecond, hthrough,
    (run_pieces s _ _ first second rfl hfirst hsecond List.mergeSort_nil rfl List.mergeSort_nil rfl
      hthrough).1⟩

end Session

end LimLang
