import LimLang.Evaluation
import LimLang.Proofs.Outcome
import LimLang.Tree.Reach
import Mathlib.Data.Int.ModEq

/-! # Machine arithmetic

The operators on integers do what a machine does with words of 64 bits.  An integer is wrapped to the
one representative of its residue that fits into a word (`MachineInt.wrap_eq_iff`), and that is its
word read with a sign (`MachineInt.toInt_word`).  So addition, subtraction and multiplication are
those of words, and so are division and remainder, which look at the signs (`eval_binary_machine`).

Residues can be added, subtracted and multiplied before they are wrapped or after.  What a tree of such
operators comes to, wrapped at every step, is therefore its exact value wrapped once
(`eval_wraps_once`), even if what stands at its leaves does not fit into a word.
-/
namespace LimLang

/-! ## Wrapping -/

namespace MachineInt

theorem wrap_modEq (v : Int) : wrap v ≡ v [ZMOD 2 ^ 64] := by
  unfold wrap
  split
  · rfl
  · rw [Int.modEq_iff_dvd]
    unfold size bound
    omega

/-- What fits into a word is told by its residue. -/
theorem eq_of_modEq {u v : Int} (hu : InRange u) (hv : InRange v) (h : u ≡ v [ZMOD 2 ^ 64]) :
    u = v := by
  unfold InRange bound at hu hv
  have hdvd := Int.modEq_iff_dvd.1 h
  omega

/-- **Wrapping finds the one integer of a residue that fits into a word.** -/
theorem wrap_eq_iff {u v : Int} : wrap v = u ↔ InRange u ∧ u ≡ v [ZMOD 2 ^ 64] := by
  constructor
  · rintro rfl
    exact ⟨wrap_inRange v, wrap_modEq v⟩
  · rintro ⟨hu, h⟩
    exact eq_of_modEq (wrap_inRange v) hu ((wrap_modEq v).trans h.symm)

theorem inRange_bmod (v : Int) : InRange (v.bmod size) := by
  have low := Int.le_bmod (x := v) (m := size) (by decide)
  have high := Int.bmod_lt (x := v) (m := size) (by decide)
  unfold InRange bound
  unfold size at *
  omega

/-- Wrapping gives the remainder that is balanced around zero. -/
theorem wrap_eq_bmod (v : Int) : wrap v = v.bmod size :=
  wrap_eq_iff.2 ⟨inRange_bmod v, Int.bmod_emod⟩

theorem wrap_congr {u v : Int} (h : u ≡ v [ZMOD 2 ^ 64]) : wrap u = wrap v :=
  wrap_eq_iff.2 ⟨wrap_inRange v, (wrap_modEq v).trans h.symm⟩

/-! ## Words -/

/-- The word that holds an integer, or what is left of it in 64 bits. -/
def word (v : Int) : BitVec 64 :=
  BitVec.ofInt 64 v

/-- A word read with its sign. -/
theorem toInt_word (v : Int) : (word v).toInt = wrap v := by
  rw [wrap_eq_bmod]
  exact BitVec.toInt_ofInt v

theorem toInt_word_of_inRange {v : Int} (h : InRange v) : (word v).toInt = v := by
  rw [toInt_word, wrap_of_inRange h]

theorem wrap_add (a b : Int) : wrap (a + b) = (word a + word b).toInt := by
  rw [← toInt_word, word, BitVec.ofInt_add]
  rfl

theorem wrap_sub (a b : Int) : wrap (a - b) = (word a - word b).toInt := by
  rw [← toInt_word, word, Int.sub_eq_add_neg, BitVec.ofInt_add, BitVec.ofInt_neg, BitVec.sub_eq_add_neg]
  rfl

theorem wrap_mul (a b : Int) : wrap (a * b) = (word a * word b).toInt := by
  rw [← toInt_word, word, BitVec.ofInt_mul]
  rfl

theorem wrap_tdiv {a b : Int} (ha : InRange a) (hb : InRange b) :
    wrap (a.tdiv b) = ((word a).sdiv (word b)).toInt := by
  rw [BitVec.toInt_sdiv, toInt_word_of_inRange ha, toInt_word_of_inRange hb, wrap_eq_bmod]
  rfl

theorem tmod_eq {a b : Int} (ha : InRange a) (hb : InRange b) :
    a.tmod b = ((word a).srem (word b)).toInt := by
  rw [BitVec.toInt_srem, toInt_word_of_inRange ha, toInt_word_of_inRange hb]

/-! ## Division -/

/-- A quotient goes toward zero: its magnitude is the quotient of the magnitudes. -/
theorem tdiv_eq_sign_mul (a b : Int) :
    a.tdiv b = a.sign * b.sign * (a.natAbs / b.natAbs : Nat) := by
  have habs : (a.tdiv b).natAbs = a.natAbs / b.natAbs := Int.natAbs_tdiv a b
  rw [← Int.sign_mul_natAbs (a.tdiv b), Int.sign_tdiv, habs]
  split
  · next hlt => rw [Nat.div_eq_of_lt hlt, Int.natCast_zero, Int.mul_zero, Int.mul_zero]
  · rfl

/-- **Dividing the magnitudes and mending the sign is dividing toward zero**, for all four
combinations of signs. -/
theorem quotient_eq_tdiv (a b : Int) : quotient a b = a.tdiv b := by
  rw [tdiv_eq_sign_mul]
  unfold quotient
  rcases Int.lt_trichotomy a 0 with ha | rfl | ha
  · rcases Int.lt_trichotomy b 0 with hb | rfl | hb
    · simp [ha, hb, Int.sign_eq_neg_one_of_neg]
    · simp
    · simp [ha, hb, hb.le, Int.sign_eq_neg_one_of_neg, Int.sign_eq_one_of_pos]
  · simp
  · rcases Int.lt_trichotomy b 0 with hb | rfl | hb
    · simp [ha, hb, ha.le, Int.sign_eq_neg_one_of_neg, Int.sign_eq_one_of_pos]
    · simp
    · simp [ha.not_gt, hb.not_gt, ha, hb, Int.sign_eq_one_of_pos]

theorem remainder_eq_tmod (a b : Int) : remainder a b = a.tmod b := by
  rw [remainder, quotient_eq_tdiv, Int.tmod_def]

/-- **`q` and `r` are the quotient and the remainder** of `a` by `b` as a machine has them. -/
structure Division (a b q r : Int) : Prop where
  quotient : q = ((word a).sdiv (word b)).toInt
  remainder : r = ((word a).srem (word b)).toInt
  /-- The quotient goes toward zero, where it fits into a word. -/
  truncated : ¬ (a = -bound ∧ b = -1) → q = a.sign * b.sign * (a.natAbs / b.natAbs : Nat)
  /-- The one quotient that does not fit. -/
  overflow : a = -bound → b = -1 → q = -bound ∧ r = 0
  /-- The remainder has the sign of what is divided. -/
  sign_remainder : r ≠ 0 → r.sign = a.sign
  small : r.natAbs < b.natAbs
  restores : wrap (q * b + r) = a

/-- Only the least integer divided by -1 does not fit into a word. -/
theorem inRange_tdiv {a b : Int} (ha : InRange a) (h : ¬ (a = -bound ∧ b = -1)) :
    InRange (a.tdiv b) := by
  have habs : (a.tdiv b).natAbs = a.natAbs / b.natAbs := Int.natAbs_tdiv a b
  unfold InRange bound at *
  by_cases hone : b.natAbs = 1
  · rcases Int.natAbs_eq_iff.1 hone with rfl | rfl
    · rwa [Nat.cast_one, Int.tdiv_one]
    · rw [Int.tdiv_neg, Nat.cast_one, Int.tdiv_one]
      omega
  · have hhalf : a.natAbs / b.natAbs ≤ a.natAbs / 2 := by
      rcases Nat.eq_zero_or_pos b.natAbs with hzero | hpos
      · rw [hzero, Nat.div_zero]
        exact Nat.zero_le _
      · exact Nat.div_le_div_left (by omega) (by decide)
    omega

theorem natAbs_tmod_lt (a : Int) {b : Int} (h : b ≠ 0) : (a.tmod b).natAbs < b.natAbs := by
  rw [Int.natAbs_tmod]
  exact Nat.mod_lt _ (Int.natAbs_pos.2 h)

theorem inRange_tmod (a : Int) {b : Int} (hb : InRange b) (h : b ≠ 0) : InRange (a.tmod b) := by
  have hlt := natAbs_tmod_lt a h
  unfold InRange bound at *
  omega

theorem division {a b : Int} (ha : InRange a) (hb : InRange b) (h : b ≠ 0) :
    Division a b (wrap (quotient a b)) (wrap (remainder a b)) := by
  rw [quotient_eq_tdiv, remainder_eq_tmod]
  have hrem : wrap (a.tmod b) = a.tmod b := wrap_of_inRange (inRange_tmod a hb h)
  rw [hrem]
  refine ⟨wrap_tdiv ha hb, tmod_eq ha hb, fun hfits => ?_, ?_, fun hne => ?_, natAbs_tmod_lt a h, ?_⟩
  · rw [wrap_of_inRange (inRange_tdiv ha hfits), tdiv_eq_sign_mul]
  · rintro rfl rfl
    exact ⟨by decide, by decide⟩
  · rw [Int.sign_tmod, if_neg fun hdvd => hne (Int.tmod_eq_zero_of_dvd hdvd)]
  · have hexact : wrap (a.tdiv b) * b + a.tmod b ≡ a [ZMOD 2 ^ 64] := by
      have hmul := ((wrap_modEq (a.tdiv b)).mul_right b).add_right (a.tmod b)
      rwa [Int.tdiv_mul_add_tmod] at hmul
    rw [wrap_congr hexact, wrap_of_inRange ha]

end MachineInt

open MachineInt

/-! ## One operator -/

/-- Operands are evaluated from left to right; what two integers come to is told by the operator. -/
theorem eval_binary_ints {room : Room} {depth : Nat} {left right : Node} {scope : Scope}
    {w w₁ w₂ : World} {a b : Int} (hleft : eval room depth left scope w = .ok (.int a) w₁)
    (hright : eval room depth right scope w₁ = .ok (.int b) w₂) (token : Token) (operator : String) :
    eval room (depth + 1) (.binary token left operator right) scope w =
      .ok (Eval.binaryInt operator a b) w₂ := by
  show (eval room depth left scope >>= _) w = _
  rw [bind_of_ok hleft]
  show (eval room depth right scope >>= _) w₁ = _
  rw [bind_of_ok hright]
  rfl

/-- **The operators on integers are those of a machine** with words of 64 bits.  Wrapping an integer of
any size gives the one that fits into a word and has the same residue.  Whatever the operands are, if
they come to integers that fit, sums, differences and products are those of the words read with their
signs, and so are quotients and remainders; only a division by zero is an error. -/
theorem eval_binary_machine :
    (∀ u v : Int, wrap v = u ↔ InRange u ∧ u ≡ v [ZMOD 2 ^ 64]) ∧
    ∀ (room : Room) (depth : Nat) (token : Token) (left right : Node) (scope : Scope)
      (w w₁ w₂ : World) (a b : Int), eval room depth left scope w = .ok (.int a) w₁ →
      eval room depth right scope w₁ = .ok (.int b) w₂ → InRange a → InRange b →
      let result (operator : String) :=
        eval room (depth + 1) (.binary token left operator right) scope w
      result "+" = .ok (.int (word a + word b).toInt) w₂ ∧
      result "-" = .ok (.int (word a - word b).toInt) w₂ ∧
      result "*" = .ok (.int (word a * word b).toInt) w₂ ∧
      (b ≠ 0 → ∃ q r, result "/" = .ok (.int q) w₂ ∧ result "%" = .ok (.int r) w₂ ∧
        Division a b q r) ∧
      (result "/" = .ok (.error "division by zero") w₂ ↔ b = 0) ∧
      (result "%" = .ok (.error "division by zero") w₂ ↔ b = 0) := by
  refine ⟨fun u v => wrap_eq_iff, ?_⟩
  intro room depth token left right scope w w₁ w₂ a b hleft hright ha hb result
  have hresult : ∀ operator, result operator = .ok (Eval.binaryInt operator a b) w₂ :=
    eval_binary_ints hleft hright token
  refine ⟨?_, ?_, ?_, fun h => ⟨_, _, ?_, ?_, division ha hb h⟩, ?_, ?_⟩
  · rw [hresult, ← wrap_add]
    rfl
  · rw [hresult, ← wrap_sub]
    rfl
  · rw [hresult, ← wrap_mul]
    rfl
  · rw [hresult, Eval.binaryInt, if_neg h]
  · rw [hresult, Eval.binaryInt, if_neg h]
  · rw [hresult, Eval.binaryInt]
    split <;> simp_all
  · rw [hresult, Eval.binaryInt]
    split <;> simp_all

/-- The least integer divided by -1. -/
theorem eval_binary_machine_overflow :
    let least : Node := .unary { kind := .minus, text := "-" } "-"
      (.int { kind := .int, text := "9223372036854775808" } bound)
    let divisor : Node := .unary { kind := .minus, text := "-" } "-" (.int { kind := .int, text := "1" } 1)
    let result (operator : String) := eval none 3
      (.binary { kind := .slash, text := "/" } least operator divisor) World.globalScope World.initial
    result "/" = .ok (.int (-bound)) World.initial ∧ result "%" = .ok (.int 0) World.initial := by
  intro least divisor result
  have hleast : eval none 2 least World.globalScope World.initial = .ok (.int (-bound)) World.initial :=
    rfl
  have hdivisor : eval none 2 divisor World.globalScope World.initial = .ok (.int (-1)) World.initial :=
    rfl
  obtain ⟨-, -, -, hdivision, -⟩ := eval_binary_machine.2 _ _ { kind := .slash, text := "/" } _ _ _ _ _ _
    _ _ hleast hdivisor (by decide) (by decide)
  obtain ⟨q, r, hquotient, hremainder, h⟩ := hdivision (by decide)
  obtain ⟨rfl, rfl⟩ := h.overflow rfl rfl
  exact ⟨hquotient, hremainder⟩

/-! ## Trees of operators -/

/-- **The exact value of a tree** of operators over literals and names: what it comes to if nothing is
ever wrapped. -/
inductive World.Exact (w : World) (scope : Scope) : Node → Int → Prop
  | literal (token : Token) (v : Int) : Exact w scope (.int token v) v
  | name {name : Ident} {v : Int} (h : w.lookup? scope name.name = some (.int v)) :
      Exact w scope (.ident name) v
  | minus {right : Node} {x : Int} (token : Token) (h : Exact w scope right x) :
      Exact w scope (.unary token "-" right) (-x)
  | plus {right : Node} {x : Int} (token : Token) (h : Exact w scope right x) :
      Exact w scope (.unary token "+" right) x
  | add {left right : Node} {x y : Int} (token : Token) (hl : Exact w scope left x)
      (hr : Exact w scope right y) : Exact w scope (.binary token left "+" right) (x + y)
  | sub {left right : Node} {x y : Int} (token : Token) (hl : Exact w scope left x)
      (hr : Exact w scope right y) : Exact w scope (.binary token left "-" right) (x - y)
  | mul {left right : Node} {x y : Int} (token : Token) (hl : Exact w scope left x)
      (hr : Exact w scope right y) : Exact w scope (.binary token left "*" right) (x * y)

/-- A node with an operator at its root. -/
def Node.isOperation : Node → Bool
  | .unary _ _ _ | .binary _ _ _ _ => true
  | _ => false

/-- **A node comes to an integer with the residue of `x`**, which fits into a word if an operator made
it. -/
def ComesTo (room : Room) (scope : Scope) (w : World) (node : Node) (x : Int) : Prop :=
  ∀ depth, node.reach Stride.walking ≤ depth → ∃ y, eval room depth node scope w = .ok (.int y) w ∧
    y ≡ x [ZMOD 2 ^ 64] ∧ (node.isOperation → InRange y)

namespace ComesTo

variable {room : Room} {scope : Scope} {w : World} {left right : Node} {x y : Int}

theorem literal (token : Token) (v : Int) : ComesTo room scope w (.int token v) v := by
  intro depth hd
  obtain ⟨k, rfl⟩ := Nat.exists_eq_add_of_le' (show 1 ≤ depth from hd)
  exact ⟨v, rfl, rfl, nofun⟩

theorem name {name : Ident} (h : w.lookup? scope name.name = some (.int x)) :
    ComesTo room scope w (.ident name) x := by
  intro depth hd
  obtain ⟨k, rfl⟩ := Nat.exists_eq_add_of_le' (show 1 ≤ depth from hd)
  refine ⟨x, ?_, rfl, nofun⟩
  show Eval.identifier scope name.name w = _
  rw [Eval.identifier, bind_get, h]
  rfl

/-- An operator in front of its operand, if it goes by residues. -/
theorem unary {f : Int → Int} {operator : String}
    (heval : ∀ v, Eval.unary operator (.int v) w = .ok (.int (wrap (f v))) w)
    (hf : ∀ {u v}, u ≡ v [ZMOD 2 ^ 64] → f u ≡ f v [ZMOD 2 ^ 64]) (token : Token)
    (h : ComesTo room scope w right x) :
    ComesTo room scope w (.unary token operator right) (f x) := by
  intro depth hd
  change 1 + right.reach Stride.walking ≤ depth at hd
  obtain ⟨k, rfl⟩ := Nat.exists_eq_add_of_le' (show 1 ≤ depth by omega)
  obtain ⟨u, hu, hmod, -⟩ := h k (by omega)
  refine ⟨wrap (f u), ?_, (wrap_modEq _).trans (hf hmod), fun _ => wrap_inRange _⟩
  show (eval room k right scope >>= _) w = _
  rw [bind_of_ok hu]
  exact heval u

/-- An operator between its operands, if it goes by residues. -/
theorem binary {f : Int → Int → Int} {operator : String}
    (heval : ∀ u v, Eval.binaryInt operator u v = .int (wrap (f u v)))
    (hf : ∀ {u u' v v'}, u ≡ u' [ZMOD 2 ^ 64] → v ≡ v' [ZMOD 2 ^ 64] →
      f u v ≡ f u' v' [ZMOD 2 ^ 64]) (token : Token)
    (hl : ComesTo room scope w left x) (hr : ComesTo room scope w right y) :
    ComesTo room scope w (.binary token left operator right) (f x y) := by
  intro depth hd
  change 1 + max (left.reach Stride.walking) (right.reach Stride.walking) ≤ depth at hd
  obtain ⟨k, rfl⟩ := Nat.exists_eq_add_of_le' (show 1 ≤ depth by omega)
  obtain ⟨u, hu, hmod, -⟩ := hl k (by omega)
  obtain ⟨v, hv, hmod', -⟩ := hr k (by omega)
  refine ⟨wrap (f u v), ?_, (wrap_modEq _).trans (hf hmod hmod'), fun _ => wrap_inRange _⟩
  rw [eval_binary_ints hu hv, heval]

end ComesTo

/-- **A tree of operators comes to its exact value**, as far as residues tell. -/
theorem World.Exact.comesTo {w : World} {scope : Scope} {node : Node} {x : Int}
    (h : w.Exact scope node x) (room : Room) : ComesTo room scope w node x := by
  induction h with
  | literal token v => exact .literal token v
  | name h => exact .name h
  | minus token h ih => exact ih.unary (f := fun v => -v) (fun _ => rfl) Int.ModEq.neg token
  | plus token h ih => exact ih.unary (f := id) (fun _ => rfl) id token
  | add token hl hr ihl ihr => exact ihl.binary (fun _ _ => rfl) Int.ModEq.add token ihr
  | sub token hl hr ihl ihr => exact ihl.binary (fun _ _ => rfl) Int.ModEq.sub token ihr
  | mul token hl hr ihl ihr => exact ihl.binary (fun _ _ => rfl) Int.ModEq.mul token ihr

/-- **Wrapping at every step is wrapping once.**  A tree with an operator at its root comes to its exact
value wrapped, if evaluation may be nested as deep as the tree. -/
theorem eval_wraps_once {w : World} {scope : Scope} {node : Node} {x : Int}
    (h : w.Exact scope node x) (hroot : node.isOperation) {depth : Nat}
    (hd : node.reach Stride.walking ≤ depth) (room : Room) :
    eval room depth node scope w = .ok (.int (wrap x)) w := by
  obtain ⟨y, heval, hmod, hrange⟩ := h.comesTo room depth hd
  rw [heval, wrap_eq_iff.2 ⟨hrange hroot, hmod⟩]

/-- `x * x - -v`, where neither the product nor the literal `v` fits into a word. -/
theorem eval_wraps_once_product : ∃ (w : World) (node : Node) (v : Int),
    w.Exact World.globalScope node v ∧ ¬ InRange v ∧
      eval none 3 node World.globalScope w = .ok (.int 8) w := by
  let x : Ident := { token := { kind := .ident, text := "x" }, name := "x" }
  let w := World.initial.bind World.globalScope "x" (.int 9223372036854775807)
  have hx : w.Exact World.globalScope (.ident x) 9223372036854775807 := .name rfl
  have hv : w.Exact World.globalScope (.int { kind := .int, text := "18446744073709551623" }
      18446744073709551623) 18446744073709551623 := .literal _ _
  have h := (hx.mul { kind := .asterisk, text := "*" } hx).sub { kind := .minus, text := "-" }
    (hv.minus { kind := .minus, text := "-" })
  exact ⟨w, _, _, h, by decide, eval_wraps_once h rfl (by decide) none⟩

end LimLang
