import LimLang.Parse.Program
import LimLang.Proofs.Tandem

/-! # Every parser runs in tandem

Parser by parser, from integers to programs: two runs from places that look the same do the same, as
long as the first neither crashes nor passes the place where the lists part (`Tandem.Rides`).  The
parsers of nested expressions and statements are arguments, as in their definitions; the first may be
nested less deep than the second.

What comes of it for lists that look the same to their ends is that a program is the same tree
wherever its tokens stand, and that a deeper limit changes nothing (`Parse.program_look`).
-/
namespace LimLang

variable {ε α : Type}

/-- **Two parsers that run in tandem** inside `groups` groups, and leave as many open. -/
def Tandem.Rides [Halt ε] [Visible α] (p : Tandem) (groups : Nat) (x y : Parser ε α) : Prop :=
  ∀ m n, Tracks p (p.InSync groups m n) (p.InSync groups m n) x y

namespace Tandem

open Parse

variable {p : Tandem} {groups m n : Nat}

/-! ## Expressions -/

theorem integer_rides (maxDigits : Nat) {t t' : Token} (ht : p.sight.see t = p.sight.see t') :
    p.Rides groups (integer maxDigits t) (integer maxDigits t') := by
  intro m n
  unfold integer
  rw [← Sight.text_eq ht]
  dsimp only
  split
  · exact .throw
  · split
    · exact .reject rfl ht
    · exact .pure (congrArg (Node.int · _) ht)

section Expressions
variable {ex ex' : Nat → Parse Node} (hex : ∀ groups floor, p.Rides groups (ex floor) (ex' floor))
include hex

theorem laterItems_tracks {more more' : Nat} (hf : p.Fair more more' m n) :
    Tracks p (p.InSync groups m n) (p.InSync groups m n) (laterItems (ex Precedence.lowest) more)
      (laterItems (ex' Precedence.lowest) more') := by
  refine Tracks.loop (x := laterItems (ex Precedence.lowest))
    (y := laterItems (ex' Precedence.lowest)) (fun _ _ => .pure rfl) (fun k k' ih m n hf => ?_) hf
  unfold laterItems
  refine Tracks.peekIs_ite ?_ (.pure rfl) _
  refine Tracks.advance.bind fun _ _ _ => ?_
  refine Tracks.advance.bind fun _ _ _ => ?_
  refine (hex _ _ _ _).bind fun item item' hitem => ?_
  refine (ih _ _ (hf.mono (by omega) (by omega))).bind fun items items' hitems => ?_
  exact (Tracks.pure (congrArg₂ List.cons hitem hitems)).widen (by omega) (by omega)

theorem items_rides (closer : Kind) :
    p.Rides groups (items (ex Precedence.lowest) closer) (items (ex' Precedence.lowest) closer) := by
  intro m n
  unfold items
  refine Tracks.openGroup.bind fun _ _ _ => ?_
  refine Tracks.peekIs_ite ?_ ?_ _
  · refine Tracks.closeGroup.bind fun _ _ _ => ?_
    refine Tracks.advance.bind fun _ _ _ => ?_
    exact (Tracks.pure rfl).widen (Nat.sub_le _ _) (Nat.sub_le _ _)
  · refine Tracks.advance.bind fun _ _ _ => ?_
    refine (hex _ _ _ _).bind fun item item' hitem => ?_
    refine (Tracks.remaining_bind fun k k' hf => ?_).widen (Nat.sub_le _ _) (Nat.sub_le _ _)
    refine (laterItems_tracks hex hf).bind fun items items' hitems => ?_
    refine Tracks.closeGroup.bind fun _ _ _ => ?_
    refine (Tracks.expect closer).bind fun _ _ _ => ?_
    exact (Tracks.pure (congrArg₂ List.cons hitem hitems)).widen (Nat.sub_le _ _) (Nat.sub_le _ _)

theorem grouped_rides (closer : Kind) :
    p.Rides groups (grouped (ex Precedence.lowest) closer)
      (grouped (ex' Precedence.lowest) closer) := by
  intro m n
  unfold grouped
  refine Tracks.openGroup.bind fun _ _ _ => ?_
  refine Tracks.advance.bind fun _ _ _ => ?_
  refine (hex _ _ _ _).bind fun value value' hvalue => ?_
  refine Tracks.closeGroup.bind fun _ _ _ => ?_
  refine (Tracks.expect closer).bind fun _ _ _ => ?_
  exact (Tracks.pure hvalue).widen (by omega) (by omega)

/-- An operand that stands behind an operator. -/
theorem operandAfter_rides {floor : Nat} {make make' : Node → Node}
    (hmake : ∀ right right', look p.sight right = look p.sight right' →
      look p.sight (make right) = look p.sight (make' right')) :
    p.Rides groups (do advance; return make (← ex floor))
      (do advance; return make' (← ex' floor)) := by
  intro m n
  refine Tracks.advance.bind fun _ _ _ => ?_
  refine (hex _ _ _ _).bind fun right right' hright => ?_
  exact (Tracks.pure (hmake _ _ hright)).widen (Nat.sub_le _ _) (Nat.sub_le _ _)

theorem unary_rides {t t' : Token} (ht : p.sight.see t = p.sight.see t') (floor : Nat) :
    p.Rides groups (do advance; return Node.unary t t.text (← ex floor))
      (do advance; return Node.unary t' t'.text (← ex' floor)) :=
  operandAfter_rides hex fun right right' hright => by
    simpa [Node.mapTokens] using ⟨ht, Sight.text_eq ht, hright⟩

theorem operand_rides (maxDigits : Nat) :
    p.Rides groups (operand maxDigits ex) (operand maxDigits ex') := by
  intro m n
  unfold operand
  refine Tracks.current_bind fun t t' ht => ?_
  have htext := Sight.text_eq ht
  rw [← Sight.kind_eq ht]
  split
  · exact .pure (by simpa [Node.mapTokens, Ident.mapToken] using ⟨ht, htext⟩)
  · exact integer_rides maxDigits ht _ _
  · exact .pure (by simpa [Node.mapTokens] using ⟨ht, htext⟩)
  · exact .pure (by simpa [Node.mapTokens] using ht)
  · exact .pure (by simpa [Node.mapTokens] using ht)
  · exact .pure (by simpa [Node.mapTokens] using ht)
  · exact unary_rides hex ht _ _ _
  · exact unary_rides hex ht _ _ _
  · exact unary_rides hex ht _ _ _
  · exact grouped_rides hex _ _ _
  · refine (items_rides hex _ _ _).bind fun items items' hitems => ?_
    exact .pure (by simpa [Node.mapTokens] using ⟨ht, hitems⟩)
  · exact .reject (congrArg Violation.notAnExpression ht) ht

theorem continuation_rides {left left' : Node} (hleft : look p.sight left = look p.sight left') :
    p.Rides groups (continuation ex left) (continuation ex' left') := by
  intro m n
  unfold continuation
  refine Tracks.current_bind fun t t' ht => ?_
  rw [← Sight.kind_eq ht]
  split
  · refine (items_rides hex _ _ _).bind fun items items' hitems => ?_
    exact .pure (by simpa [Node.mapTokens] using ⟨ht, hleft, hitems⟩)
  · refine (grouped_rides hex _ _ _).bind fun position position' hposition => ?_
    exact .pure (by simpa [Node.mapTokens] using ⟨ht, hleft, hposition⟩)
  · refine operandAfter_rides hex (fun right right' hright => ?_) _ _
    simpa [Node.mapTokens] using ⟨ht, hleft, Sight.text_eq ht, hright⟩

theorem climb_tracks (floor : Nat) {more more' : Nat} (hf : p.Fair more more' m n)
    {left left' : Node} (hleft : look p.sight left = look p.sight left') :
    Tracks p (p.InSync groups m n) (p.InSync groups m n) (climb ex floor more left)
      (climb ex' floor more' left') := by
  refine Tracks.loopWith (x := climb ex floor) (y := climb ex' floor) (fun _ _ _ _ h => .pure h)
    (fun k k' ih left left' m n hleft hf => ?_) hleft hf
  unfold climb
  refine Tracks.peek_ite ?_ (.pure hleft) fun kind => floor < kind.precedence
  refine Tracks.advance.bind fun _ _ _ => ?_
  refine (continuation_rides hex hleft _ _).bind fun left left' hleft => ?_
  exact (ih _ _ _ _ hleft (hf.mono (Nat.le_refl _) (Nat.le_refl _))).widen (Nat.sub_le _ _)
    (Nat.sub_le _ _)

/-- An expression, if those nested in it run in tandem. -/
theorem operand_climb_rides (maxDigits floor : Nat) :
    p.Rides groups
      (do let left ← operand maxDigits ex; climb ex floor (← remaining) left)
      (do let left ← operand maxDigits ex'; climb ex' floor (← remaining) left) := by
  intro m n
  refine (operand_rides hex maxDigits _ _).bind fun left left' hleft => ?_
  exact Tracks.remaining_bind fun k k' hf => climb_tracks hex floor hf hleft

end Expressions

theorem expression_rides_self (maxDigits depth floor groups : Nat) :
    p.Rides groups (expression maxDigits depth floor) (expression maxDigits depth floor) := by
  induction depth generalizing groups floor with
  | zero => exact fun _ _ => .throw
  | succ depth ih => exact operand_climb_rides (fun groups floor => ih floor groups) maxDigits floor

/-- **Expressions run in tandem**, if the first is not nested deeper than the second. -/
theorem expression_rides (maxDigits : Nat) {depth depth' : Nat} (hd : depth ≤ depth')
    (floor : Nat) :
    p.Rides groups (expression maxDigits depth floor) (expression maxDigits depth' floor) := by
  induction depth generalizing groups depth' floor with
  | zero =>
    intro m n
    have hself := expression_rides_self (p := p) maxDigits depth' floor
    exact .crash (by rintro ⟨⟩) (hself 0 m n).shrinks.2
  | succ depth ih =>
    obtain ⟨depth', rfl⟩ : ∃ k, depth' = k + 1 := ⟨depth' - 1, by omega⟩
    exact operand_climb_rides (fun _ => ih (by omega)) maxDigits floor

/-! ## Statements that end before a terminator -/

theorem declaredName_rides : p.Rides groups declaredName declaredName := by
  intro m n
  unfold declaredName
  refine (Tracks.expectNamed _ _).bind fun t t' ht => ?_
  refine (Tracks.pure ?_).widen (Nat.sub_le _ _) (Nat.sub_le _ _)
  simpa [Ident.mapToken] using ⟨ht, Sight.text_eq ht⟩

theorem endStatement_rides : p.Rides groups endStatement endStatement := by
  intro m n
  unfold endStatement
  refine Tracks.peek_bind fun t t' ht => ?_
  rw [← Sight.is_eq ht, ← Sight.kind_eq ht]
  split
  · exact Tracks.advance.widen (Nat.sub_le _ _) (Nat.sub_le _ _)
  · split
    · exact .reject (congrArg Violation.endOfStatement ht) ht
    · exact .pure rfl

theorem simple_rides {x y : Parse Node} (h : p.Rides groups x y) :
    p.Rides groups (simple x) (simple y) := by
  intro m n
  unfold simple
  refine (h _ _).bind fun node node' hnode => ?_
  refine (endStatement_rides _ _).bind fun _ _ _ => ?_
  exact .pure (congrArg some hnode)

section Simple
variable {ex ex' : Parse Node} (hex : p.Rides groups ex ex')
include hex

theorem initializer_rides (zero : Node) :
    p.Rides groups (initializer ex zero) (initializer ex' zero) := by
  intro m n
  unfold initializer
  refine Tracks.atEnd_ite (.pure rfl) ?_
  refine (Tracks.expect _).bind fun _ _ _ => ?_
  refine Tracks.advance.bind fun _ _ _ => ?_
  exact (hex _ _).widen (by omega) (by omega)

theorem declaration_rides (type : BasicType) :
    p.Rides groups (declaration ex type) (declaration ex' type) := by
  intro m n
  unfold declaration
  refine Tracks.current_bind fun t t' ht => ?_
  refine (declaredName_rides _ _).bind fun name name' hname => ?_
  refine (initializer_rides hex _ _ _).bind fun value value' hvalue => ?_
  exact .pure (by simpa [Node.mapTokens] using ⟨ht, hname, hvalue⟩)

theorem arrayDeclaration_rides : p.Rides groups (arrayDeclaration ex) (arrayDeclaration ex') := by
  intro m n
  unfold arrayDeclaration
  refine Tracks.current_bind fun t t' ht => ?_
  refine (Tracks.expect _).bind fun _ _ _ => ?_
  refine (Tracks.expect _).bind fun _ _ _ => ?_
  refine (declaredName_rides _ _).bind fun name name' hname => ?_
  refine (initializer_rides hex _ _ _).bind fun value value' hvalue => ?_
  refine (Tracks.pure ?_).widen (by omega) (by omega)
  simpa [Node.mapTokens] using ⟨ht, Sight.text_eq ht, hname, hvalue⟩

theorem definition_rides : p.Rides groups (definition ex) (definition ex') := by
  intro m n
  unfold definition
  refine Tracks.current_bind fun t t' ht => ?_
  refine Tracks.advance.bind fun _ _ _ => ?_
  refine Tracks.current_bind fun define define' hdefine => ?_
  refine Tracks.advance.bind fun _ _ _ => ?_
  refine Tracks.current_bind fun leading leading' hleading => ?_
  have htext := Sight.text_eq ht
  have hname : look p.sight { token := t, name := t.text : Ident } =
      look p.sight { token := t', name := t'.text : Ident } := by
    simpa [Ident.mapToken] using ⟨ht, htext⟩
  have hreject : Tracks p (p.InSync groups (m - 1 - 1) (n - 1 - 1)) (p.InSync groups m n)
      (reject (.cannotInfer t.text leading) leading : Parse Node)
      (reject (.cannotInfer t'.text leading') leading') := by
    refine .reject ?_ hleading
    rw [Violation.mapTokens, Violation.mapTokens, htext, hleading]
  dsimp only
  rw [← Sight.is_eq hleading, ← Sight.kind_eq hleading]
  split
  · refine (hex _ _).bind fun value value' hvalue => ?_
    split
    · next opener elements =>
      split
      · next opener' elements' =>
        obtain ⟨hopener, helements⟩ := Node.array.inj hvalue
        have htype : BasicType.ofElements elements = BasicType.ofElements elements' := by
          rw [← BasicType.ofElements_mapTokensIn p.sight, helements,
            BasicType.ofElements_mapTokensIn]
        refine (Tracks.pure ?_).widen (by omega) (by omega)
        rw [htype]
        simpa [Node.mapTokens] using
          ⟨p.sight.see_at _ _ _ _ hdefine, hname, hopener, helements⟩
      · next hother =>
        obtain ⟨token, items, harray⟩ := Node.exists_of_mapTokens_eq_array hvalue.symm
        exact absurd harray (hother token items)
    · next hother =>
      split
      · obtain ⟨token, items, harray⟩ := Node.exists_of_mapTokens_eq_array hvalue
        exact absurd harray (hother token items)
      · exact hreject
  · split
    · next type _ =>
      refine (hex _ _).bind fun value value' hvalue => ?_
      refine (Tracks.pure ?_).widen (by omega) (by omega)
      simpa [Node.mapTokens] using ⟨p.sight.see_at _ _ _ _ hdefine, hname, hvalue⟩
    · exact hreject

theorem returnStatement_rides : p.Rides groups (returnStatement ex) (returnStatement ex') := by
  intro m n
  unfold returnStatement
  refine Tracks.current_bind fun t t' ht => ?_
  refine Tracks.atEnd_ite (.pure (by simpa [Node.mapTokens] using ht)) ?_
  refine Tracks.advance.bind fun _ _ _ => ?_
  refine (hex _ _).bind fun value value' hvalue => ?_
  refine (Tracks.pure ?_).widen (Nat.sub_le _ _) (Nat.sub_le _ _)
  simpa [Node.mapTokens] using ⟨ht, hvalue⟩

theorem expressionStatement_rides :
    p.Rides groups (expressionStatement ex) (expressionStatement ex') := by
  intro m n
  unfold expressionStatement
  refine Tracks.current_bind fun t t' ht => ?_
  refine (hex _ _).bind fun value value' hvalue => ?_
  exact .pure (by simpa [Node.mapTokens] using ⟨ht, hvalue⟩)

end Simple

/-! ## The signatures of functions -/

theorem typeName_rides : p.Rides groups typeName typeName := by
  intro m n
  unfold typeName
  refine Tracks.current_bind fun t t' ht => ?_
  rw [← Sight.text_eq ht]
  refine Tracks.peekIs_ite ?_ (.pure rfl) _
  refine Tracks.advance.bind fun _ _ _ => ?_
  refine (Tracks.expect _).bind fun _ _ _ => ?_
  exact (Tracks.pure rfl).widen (by omega) (by omega)

theorem laterParameters_tracks {more more' : Nat} (hf : p.Fair more more' m n) :
    Tracks p (p.InSync groups m n) (p.InSync groups m n) (laterParameters more)
      (laterParameters more') := by
  refine Tracks.loop (x := laterParameters) (y := laterParameters) (fun _ _ => .pure rfl)
    (fun k k' ih m n hf => ?_) hf
  unfold laterParameters
  refine Tracks.advance.bind fun _ _ _ => ?_
  refine Tracks.current_bind fun first first' hfirst => ?_
  rw [← Sight.kind_eq hfirst]
  split
  · refine (typeName_rides _ _).bind fun type type' htype => ?_
    refine (Tracks.expectNamed _ _).bind fun t t' ht => ?_
    have hparameter : look p.sight { token := t, name := t.text, typeName := some type : Ident } =
        look p.sight { token := t', name := t'.text, typeName := some type' : Ident } := by
      simpa [Ident.mapToken] using ⟨ht, Sight.text_eq ht, htype⟩
    refine Tracks.peekIs_ite ?_ ?_ _
    · refine Tracks.advance.bind fun _ _ _ => ?_
      refine (ih _ _ (hf.mono (by omega) (by omega))).bind fun later later' hlater => ?_
      exact (Tracks.pure (congrArg₂ List.cons hparameter hlater)).widen (by omega) (by omega)
    · exact (Tracks.pure (congrArg (fun parameter => [parameter]) hparameter)).widen (by omega)
        (by omega)
  · exact .reject (congrArg Violation.parameterType hfirst) hfirst

theorem parameters_rides : p.Rides groups parameters parameters := by
  intro m n
  unfold parameters
  refine Tracks.openGroup.bind fun _ _ _ => ?_
  refine Tracks.peekIs_ite ?_ ?_ _
  · refine Tracks.closeGroup.bind fun _ _ _ => ?_
    refine Tracks.advance.bind fun _ _ _ => ?_
    exact (Tracks.pure rfl).widen (Nat.sub_le _ _) (Nat.sub_le _ _)
  · refine Tracks.remaining_bind fun k k' hf => ?_
    refine (laterParameters_tracks hf.succ).bind fun items items' hitems => ?_
    refine Tracks.closeGroup.bind fun _ _ _ => ?_
    refine (Tracks.expect _).bind fun _ _ _ => ?_
    exact (Tracks.pure hitems).widen (Nat.sub_le _ _) (Nat.sub_le _ _)

theorem resultType_rides : p.Rides groups resultType resultType := by
  have htype : p.Rides groups
      (do if (← peek).kind.isType then advance; return some (← typeName) else return none)
      (do if (← peek).kind.isType then advance; return some (← typeName) else return none) := by
    intro m n
    refine Tracks.peek_ite ?_ (.pure rfl) fun kind => kind.isType = true
    refine Tracks.advance.bind fun _ _ _ => ?_
    refine (typeName_rides _ _).bind fun type type' htype => ?_
    exact (Tracks.pure (congrArg some htype)).widen (Nat.sub_le _ _) (Nat.sub_le _ _)
  intro m n
  unfold resultType
  refine Tracks.peekIs_ite ?_ (htype _ _) _
  refine Tracks.advance.bind fun _ _ _ => ?_
  refine Tracks.peek_bind fun t t' ht => ?_
  rw [← Sight.kind_eq ht]
  split
  · have hrejected : Tracks p (p.InSync groups (m - 1) (n - 1)) (p.InSync groups m n)
        (reject (.resultType t) t : Parse Unit) (reject (.resultType t') t') :=
      .reject (congrArg Violation.resultType ht) ht
    exact hrejected.bind fun _ _ _ => htype _ _
  · exact (htype _ _).widen (Nat.sub_le _ _) (Nat.sub_le _ _)

/-! ## Statements with blocks -/

theorem liftCrash_tracks {x y : Parser Crash (List Node)} {pre post : ParseState → ParseState → Prop}
    (h : Tracks p pre post x y) : Tracks p pre post (liftCrash x) (liftCrash y) := by
  have hfinal : ∀ (x : Parser Crash (List Node)) s,
      finalState (liftCrash x s) = finalState (x s) := by
    intro x s
    unfold liftCrash
    cases x s <;> rfl
  refine ⟨⟨fun s => ?_, fun s => ?_⟩, fun s s' hs => ?_⟩
  · rw [hfinal]
    exact h.shrinks.1 s
  · rw [hfinal]
    exact h.shrinks.2 s
  · have hagrees := h.agrees s s' hs
    unfold liftCrash
    cases hx : x s with
    | ok a t =>
      rw [hx] at hagrees
      refine hagrees.imp_right ?_
      rintro ⟨a', t', hy, ha, ht⟩
      exact ⟨a', t', by rw [hy], ha, ht⟩
    | error crash t => rintro ⟨⟩

theorem recovering_shrinks {statement : Parse (Option Node)} (h : Shrinks statement) :
    Shrinks (recovering statement) := by
  intro s
  have hle := h s
  unfold recovering
  cases hx : statement s with
  | ok node t =>
    rw [hx] at hle
    exact hle
  | error halt t =>
    rw [hx] at hle
    cases halt with
    | crash crash => exact hle
    | malformed => exact Nat.le_trans (Cursor.length_skipWithin_le _ _ _) hle

/-- A block whose opening brace is `token`, inside `groups` groups. -/
def blockFrom (statement : Parse (Option Node)) (token : Token) (groups : Nat) : Parse Node := do
  move fun c => { c with groups := 0 }
  advance
  let nodes ← liftCrash (statements Kind.closesBlock statement ((← remaining) + 2))
  move fun c => { c with groups := groups }
  let last ← current
  if last.is .eof then reject .unclosedBlock last
  else return .block token nodes

theorem block_eq (statement : Parse (Option Node)) (s : ParseState) :
    block statement s = blockFrom statement s.current s.groups s := rfl

theorem blockFrom_shrinks {statement : Parse (Option Node)}
    (h : ∀ k, Shrinks (liftCrash (statements Kind.closesBlock statement k))) (token : Token)
    (groups : Nat) : Shrinks (blockFrom statement token groups) := by
  unfold blockFrom
  refine .bind (.move fun _ => Nat.le_refl _) fun _ => ?_
  refine .bind (.move Cursor.length_ahead_advance_le) fun _ => ?_
  refine .remaining_bind fun n => ?_
  refine (h _).bind fun nodes => ?_
  refine .bind (.move fun _ => Nat.le_refl _) fun _ => ?_
  refine .current_bind fun last => ?_
  split
  · exact .reject _ _
  · exact .pure _

section Compound
variable {statement statement' : Parse (Option Node)} (hst : p.Rides 0 statement statement')
include hst

/-- **A malformed statement is skipped in both runs.** -/
theorem recovering_rides : p.Rides 0 (recovering statement) (recovering statement') := by
  intro m n
  have hshrinks := (hst m n).shrinks
  refine ⟨⟨recovering_shrinks hshrinks.1, recovering_shrinks hshrinks.2⟩, fun s s' hs => ?_⟩
  have hagrees := (hst m n).agrees s s' hs
  unfold recovering
  cases hx : statement s with
  | ok node t =>
    rw [hx] at hagrees
    refine hagrees.imp_right ?_
    rintro ⟨node', t', hy, hnode, ht⟩
    exact ⟨node', t', by rw [hy], hnode, ht⟩
  | error halt t =>
    cases halt with
    | crash crash => rintro ⟨⟩
    | malformed =>
      rw [hx] at hagrees
      rcases hagrees rfl with hpast | ⟨t', groups, i, j, hy, ht⟩
      · exact .inl (hpast.mono (Cursor.length_skipWithin_le _ _ _))
      have hcursor := ht.cursor.ungroup.tight
      simp only [hy, hs.cursor.groups_eq, hs.cursor.groups_eq']
      refine (hcursor.skipWithin hcursor.fair.succ 0).imp_right fun hnext => ?_
      refine ⟨none, _, rfl, rfl, hnext.mono fun htail => ?_, ht.findings⟩
      have hle := hshrinks.1 s
      have hle' := hshrinks.2 s'
      rw [hx] at hle
      rw [hy] at hle'
      obtain ⟨hm, hn⟩ := hs.cursor.bounds htail
      exact ⟨Nat.le_trans hle hm, Nat.le_trans hle' hn⟩

theorem statements_tracks (closes : Kind → Bool) {more more' : Nat} (hf : p.Fair more more' m n) :
    Tracks p (p.InSync 0 m n) (p.InSync 0 m n) (statements closes statement more)
      (statements closes statement' more') := by
  refine Tracks.loop (x := statements closes statement) (y := statements closes statement')
    (fun _ _ => .pure rfl) (fun k k' ih m n hf => ?_) hf
  unfold statements
  refine Tracks.current_bind fun t t' ht => ?_
  rw [← Sight.kind_eq ht]
  split
  · exact .pure rfl
  refine (recovering_rides hst _ _).bind fun result result' hresult => ?_
  have hnext := ih _ _ (hf.mono (Nat.le_refl _) (Nat.le_refl _))
  cases result with
  | some node =>
    cases result' with
    | none => cases hresult
    | some node' =>
      refine Tracks.advance.bind fun _ _ _ => ?_
      refine hnext.bind fun nodes nodes' hnodes => ?_
      exact (Tracks.pure (congrArg₂ List.cons (Option.some.inj hresult) hnodes)).widen
        (Nat.sub_le _ _) (Nat.sub_le _ _)
  | none =>
    cases result' with
    | some node' => cases hresult
    | none =>
      refine Tracks.current_bind fun t t' ht => ?_
      rw [← Sight.kind_eq ht]
      split
      · exact .pure rfl
      refine Tracks.advance.bind fun _ _ _ => ?_
      exact hnext.widen (Nat.sub_le _ _) (Nat.sub_le _ _)

theorem block_rides : p.Rides 0 (block statement) (block statement') := by
  intro m n
  have hbody : ∀ k k' m n, p.Fair k k' m n → Tracks p (p.InSync 0 m n) (p.InSync 0 m n)
      (liftCrash (statements Kind.closesBlock statement k))
      (liftCrash (statements Kind.closesBlock statement' k')) :=
    fun k k' m n hf => liftCrash_tracks (statements_tracks hst _ hf)
  have hshrinks := fun k => (hbody k k 0 0 ⟨fun _ => rfl, fun _ => by omega⟩).shrinks
  have htracks : ∀ t t', p.sight.see t = p.sight.see t' → Tracks p (p.InSync 0 m n) (p.InSync 0 m n)
      (blockFrom statement t 0) (blockFrom statement' t' 0) := by
    intro t t' ht
    unfold blockFrom
    refine Tracks.ungroup.bind fun _ _ _ => ?_
    refine Tracks.advance.bind fun _ _ _ => ?_
    refine (Tracks.remaining_bind fun k k' hf => ?_).widen (Nat.sub_le _ _) (Nat.sub_le _ _)
    refine (hbody _ _ _ _ hf.succ.succ).bind fun nodes nodes' hnodes => ?_
    refine Tracks.ungroup.bind fun _ _ _ => ?_
    refine Tracks.current_bind fun last last' hlast => ?_
    rw [← Sight.is_eq hlast]
    split
    · exact .reject rfl hlast
    · exact .pure (by simpa [Node.mapTokens] using ⟨ht, hnodes⟩)
  refine ⟨⟨fun s => ?_, fun s => ?_⟩, fun s s' hs => ?_⟩
  · exact blockFrom_shrinks (fun k => (hshrinks k).1) s.current s.groups s
  · exact blockFrom_shrinks (fun k => (hshrinks k).2) s.current s.groups s
  · rw [block_eq, block_eq, hs.cursor.groups_eq, hs.cursor.groups_eq']
    exact (htracks _ _ hs.cursor.current).agrees s s' hs

theorem function_rides : p.Rides 0 (function statement) (function statement') := by
  intro m n
  unfold function
  refine Tracks.current_bind fun t t' ht => ?_
  refine (Tracks.expectNamed _ _).bind fun name name' hname => ?_
  refine (Tracks.expect _).bind fun _ _ _ => ?_
  refine (parameters_rides _ _).bind fun parameters parameters' hparameters => ?_
  refine (resultType_rides _ _).bind fun result result' hresult => ?_
  refine (Tracks.expect _).bind fun _ _ _ => ?_
  refine (block_rides hst _ _).bind fun body body' hbody => ?_
  refine (Tracks.pure ?_).widen (by omega) (by omega)
  simpa [Node.mapTokens] using ⟨ht, Sight.text_eq hname, hparameters, hresult, hbody⟩

variable {ex ex' : Parse Node} (hex : p.Rides 0 ex ex')
include hex

theorem branches_tracks {more more' : Nat} (hf : p.Fair more more' m n) :
    Tracks p (p.InSync 0 m n) (p.InSync 0 m n) (branches ex statement more)
      (branches ex' statement' more') := by
  refine Tracks.loop (x := branches ex statement) (y := branches ex' statement')
    (fun _ _ => .throw) (fun k k' ih m n hf => ?_) hf
  unfold branches
  refine Tracks.current_bind fun t t' ht => ?_
  refine Tracks.advance.bind fun _ _ _ => ?_
  refine (hex _ _).bind fun condition condition' hcondition => ?_
  refine (Tracks.expect _).bind fun _ _ _ => ?_
  refine (block_rides hst _ _).bind fun body body' hbody => ?_
  refine Tracks.peekIs_ite ?_ ?_ _
  · refine Tracks.advance.bind fun _ _ _ => ?_
    refine Tracks.current_bind fun otherwise otherwise' hotherwise => ?_
    refine Tracks.peek_bind fun next next' hnext => ?_
    rw [← Sight.is_eq hnext, ← Sight.is_eq hnext]
    split
    · refine Tracks.advance.bind fun _ _ _ => ?_
      refine (block_rides hst _ _).bind fun last last' hlast => ?_
      refine (Tracks.pure ?_).widen (by omega) (by omega)
      simpa [Node.mapTokens] using ⟨ht, hcondition, hbody, hotherwise, hlast⟩
    · split
      · refine Tracks.advance.bind fun _ _ _ => ?_
        refine (ih _ _ (hf.mono (by omega) (by omega))).bind fun rest rest' hrest => ?_
        refine (Tracks.pure ?_).widen (by omega) (by omega)
        simpa [Node.mapTokens] using ⟨ht, hcondition, hbody, hrest⟩
      · exact .reject (congrArg Violation.elseBranch hnext) hnext
  · refine (Tracks.pure ?_).widen (by omega) (by omega)
    simpa [Node.mapTokens] using ⟨ht, hcondition, hbody⟩

theorem statementWith_rides :
    p.Rides 0 (statementWith ex statement) (statementWith ex' statement') := by
  intro m n
  unfold statementWith
  refine Tracks.current_bind fun t t' ht => ?_
  rw [← Sight.kind_eq ht]
  split
  · exact .throw
  · exact .pure rfl
  · exact .reject rfl ht
  · exact .reject rfl ht
  · exact .reject rfl ht
  · refine (function_rides hst _ _).bind fun node node' hnode => ?_
    exact .pure (congrArg some hnode)
  · refine Tracks.remaining_bind fun k k' hf => ?_
    refine (branches_tracks hst hex hf.succ).bind fun node node' hnode => ?_
    exact .pure (congrArg some hnode)
  · exact simple_rides (returnStatement_rides hex) _ _
  · split
    · exact Tracks.peekIs_ite (simple_rides (arrayDeclaration_rides hex) _ _)
        (simple_rides (declaration_rides hex _) _ _) _
    · refine Tracks.peekIs_bind fun b => ?_
      split
      · exact simple_rides (definition_rides hex) _ _
      · exact simple_rides (expressionStatement_rides hex) _ _

end Compound

theorem statement_rides_self (maxDigits depth : Nat) :
    p.Rides 0 (statement maxDigits depth) (statement maxDigits depth) := by
  induction depth with
  | zero => exact fun _ _ => .throw
  | succ depth ih =>
    exact statementWith_rides ih (expression_rides_self maxDigits depth Precedence.lowest 0)

/-- **Statements run in tandem**, if the first is not nested deeper than the second. -/
theorem statement_rides (maxDigits : Nat) {depth depth' : Nat} (hd : depth ≤ depth') :
    p.Rides 0 (statement maxDigits depth) (statement maxDigits depth') := by
  induction depth generalizing depth' with
  | zero =>
    intro m n
    have hself := statement_rides_self (p := p) maxDigits depth'
    exact .crash (by rintro ⟨⟩) (hself m n).shrinks.2
  | succ depth ih =>
    obtain ⟨depth', rfl⟩ : ∃ k, depth' = k + 1 := ⟨depth' - 1, by omega⟩
    exact statementWith_rides (ih (by omega))
      (expression_rides maxDigits (by omega) Precedence.lowest)

/-- **Programs run in tandem**, if the second may be nested as deep as the first. -/
theorem program_rides {limits limits' : Limits} (hdigits : limits.digits = limits'.digits)
    (hnesting : limits.nesting ≤ limits'.nesting) :
    p.Rides 0 (program limits) (program limits') := by
  intro m n
  unfold program
  refine Tracks.remaining_bind fun k k' hf => ?_
  rw [hdigits]
  refine (statements_tracks (statement_rides _ hnesting) _ hf.succ.succ).bind
    fun nodes nodes' hnodes => ?_
  exact .pure (congrArg Node.program hnodes)

/-- Two lists that look the same to their ends. -/
def whole (v : Sight) : Tandem where
  sight := v
  tail := []
  tail' := []
  ends := .inl ⟨rfl, rfl⟩

/-- Where both lists end, nothing is past their ends. -/
theorem not_past_whole (v : Sight) (ahead : List Token) : ¬ (whole v).Past ahead :=
  Nat.not_lt_zero _

/-- **Lists that look the same are started on in sync.** -/
theorem inSync_initial {v : Sight} {ts us : List Token} {last last' : Token}
    (hlook : ts.map v.see = us.map v.see) (hlast : v.see last = v.see last') :
    (whole v).InSync 0 0 0 (initial ts last) (initial us last') := by
  have hstart : (whole v).Sync 0 0 0 { current := last, ahead := ts, groups := 0 }
      { current := last', ahead := us, groups := 0 } :=
    ⟨hlast, rfl, rfl, ⟨ts, us, (List.append_nil ts).symm, (List.append_nil us).symm, hlook,
      fun h => absurd rfl h⟩, fun h => absurd rfl h⟩
  exact ⟨hstart.advance.resolve_left (not_past_whole v _), rfl⟩

end Tandem

/-- To the ends of both lists, the second run has a result where the first has one. -/
theorem Tracks.run [Halt ε] [Visible α] {v : Sight} {pre post : ParseState → ParseState → Prop}
    {x y : Parser ε α} (h : Tracks (Tandem.whole v) pre post x y) {s s' t : ParseState} {a : α}
    (hs : pre s s') (hrun : x s = .ok a t) :
    ∃ a' t', y s' = .ok a' t' ∧ look v a = look v a' ∧ post t t' := by
  have hagrees := h.agrees s s' hs
  rw [hrun] at hagrees
  exact hagrees.resolve_left (Tandem.not_past_whole v _)

/-- **A program depends on what is seen of its tokens only**, and on a deeper limit not at all. -/
theorem Parse.program_look {v : Sight} {ts us : List Token} {last last' : Token}
    (hlook : ts.map v.see = us.map v.see) (hlast : v.see last = v.see last') {limits limits' : Limits}
    (hdigits : limits.digits = limits'.digits) (hnesting : limits.nesting ≤ limits'.nesting)
    {tree : Node} {t : ParseState} (hrun : program limits (initial ts last) = .ok tree t) :
    ∃ tree' t', program limits' (initial us last') = .ok tree' t' ∧
      tree.mapTokens v.see = tree'.mapTokens v.see ∧
      t.findings.map (Finding.mapTokens v.see) = t'.findings.map (Finding.mapTokens v.see) := by
  obtain ⟨tree', t', hrun', htree, ht⟩ := (Tandem.program_rides hdigits hnesting 0 0).run
    (Tandem.inSync_initial hlook hlast) hrun
  exact ⟨tree', t', hrun', htree, ht.findings⟩

end LimLang
