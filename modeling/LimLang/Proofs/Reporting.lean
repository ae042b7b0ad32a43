import LimLang.Reporter
import Mathlib.Tactic.Common

/-! # What is reported

The texts that the interpreter writes when it gives up, on a terminal without colours.  A program's
own error is worded by a template in which the braces of the error's message are doubled; filling
such a template gives the message back, whatever it is (`Template.fill_escape`), so that an error is
always reported by its message.
-/
namespace LimLang

/-! ## Doubled braces -/

namespace Template

/-- A character that is no brace stands for itself. -/
theorem piecesFrom_text_cons {c : Char} (ho : c ≠ '\x7b') (hc : c ≠ '\x7d') (cs : List Char) :
    piecesFrom .text (c :: cs) = .char c :: piecesFrom .text cs := by
  conv_lhs => unfold piecesFrom
  split <;> simp_all

theorem pieces_escape (s : String) : pieces (escape s).toList = s.toList.map .char := by
  unfold pieces escape
  rw [String.toList_ofList]
  induction s.toList with
  | nil => rfl
  | cons c cs ih =>
    rw [List.flatMap_cons, List.map_cons, ← ih]
    by_cases ho : c = '\x7b'
    · subst ho
      rfl
    · by_cases hc : c = '\x7d'
      · subst hc
        rfl
      · rw [if_neg (not_or.2 ⟨ho, hc⟩), List.singleton_append, piecesFrom_text_cons ho hc]

/-- Running text needs no arguments. -/
theorem fillPieces_chars
    (expand : Counting → List Char → Except TemplateFault (List Char × Counting))
    (args : List String) (counting : Counting) (cs : List Char) :
    fillPieces expand args counting (cs.map .char) = .ok (cs, counting) := by
  induction cs with
  | nil => rfl
  | cons c cs ih =>
    rw [List.map_cons, fillPieces, ih]
    rfl

/-- **Filling undoes the doubling of braces.** -/
theorem fill_escape (s : String) (args : List String) : fill (escape s) args = .ok s := by
  unfold fill fillWithin
  rw [pieces_escape, fillPieces_chars]
  show Except.ok (String.ofList s.toList) = _
  rw [String.ofList_toList]

end Template

/-! ## Complaints -/

/-- **An error is reported by its message.** -/
theorem Complaint.runtime_shown [Painter] (message path : String) :
    ∃ c, runtime message = .ok c ∧ c.details = [] ∧
      c.summary.shown path false .error = "error: " ++ message := by
  have hfill : @Diagnostic.fill .plain false (Template.escape message) [] =
      .ok [.either message message] := by
    unfold Diagnostic.fill
    simp only [List.map_nil, Template.fill_escape]
    rfl
  unfold runtime Diagnostic.ofTemplate
  simp only [hfill]
  refine ⟨_, rfl, rfl, ?_⟩
  simp [Diagnostic.shown, Message.shown, Fragment.shown, Painter.paint_off, Severity.label]

/-- What sums up `count` errors of the text called `path`. -/
def Complaint.countText (path : String) (count : Nat) : String :=
  "error: could not parse " ++ (if path = "" then "<input>" else path) ++ ": " ++ toString count ++
    if count = 1 then " error" else " errors"

theorem Complaint.unparsable_shown [Painter] (path : String) (details : List Diagnostic) :
    (unparsable path details).summary.shown path false .error = countText path details.length := by
  have hopening : "error: could not parse " = "error: " ++ "could not parse " := rfl
  unfold unparsable countText
  simp only [Diagnostic.shown, Diagnostic.plain, Message.shown, List.map_cons, List.map_nil,
    Fragment.shown, Painter.paint_off, Severity.label, hopening]
  simp only [String.append_assoc, String.join_cons, String.join_nil]
  simp

end LimLang
