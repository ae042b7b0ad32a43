import LimLang.Session
import Mathlib.Tactic.Common

/-! # Open brackets

A line is complete unless a bracket is left open in it, and whether one is left open is told by the
tokens: the opening brackets less the closing ones (`Token.balance`).

Tokens that open as many brackets as they close may still be cut by a newline.  They *hold* inside
some brackets (`Token.Held`) if at every newline among them a bracket is open.  What holds one after
the other holds together, and a pair of brackets around it makes up for a bracket less outside.
-/
namespace LimLang

/-- What a token adds to the brackets that are open. -/
def Kind.weight (kind : Kind) : Int :=
  if kind.isOpener then 1 else if kind.isCloser then -1 else 0

namespace Token

/-- Opening brackets less closing ones. -/
def balance (ts : List Token) : Int :=
  (ts.countP fun t => t.kind.isOpener : Int) - ts.countP fun t => t.kind.isCloser

@[simp] theorem balance_nil : balance [] = 0 := rfl

theorem balance_append (ts us : List Token) : balance (ts ++ us) = balance ts + balance us := by
  unfold balance
  rw [List.countP_append, List.countP_append]
  omega

/-- No bracket is both an opening and a closing one. -/
theorem balance_cons (t : Token) (ts : List Token) :
    balance (t :: ts) = t.kind.weight + balance ts := by
  have hboth : t.kind.isOpener → t.kind.isCloser = false := by
    intro h
    generalize t.kind = kind at h
    cases kind <;> first | rfl | cases h
  unfold balance Kind.weight
  rw [List.countP_cons, List.countP_cons]
  by_cases hopen : t.kind.isOpener
  · rw [if_pos hopen, if_pos hopen, hboth hopen]
    simp only [Bool.false_eq_true, if_false]
    omega
  · rw [if_neg hopen, if_neg hopen]
    by_cases hclose : t.kind.isCloser
    · rw [if_pos hclose, if_pos hclose]
      omega
    · rw [if_neg hclose, if_neg hclose]
      omega

/-- At each newline a bracket is open, if `n` are open in front. -/
def Sheltered (n : Int) (ts : List Token) : Prop :=
  ∀ us t vs, ts = us ++ t :: vs → t.kind = .endOfLine → 0 < n + balance us

namespace Sheltered

variable {n : Int} {ts us : List Token} {t : Token}

theorem single (h : t.kind = .endOfLine → 0 < n) : Sheltered n [t] := by
  intro us u vs heq hu
  cases us with
  | nil =>
    obtain ⟨rfl, -⟩ := List.cons.inj heq
    rw [balance_nil, Int.add_zero]
    exact h hu
  | cons v us => simp at heq

theorem append (h : Sheltered n ts) (h' : Sheltered (n + balance ts) us) :
    Sheltered n (ts ++ us) := by
  intro vs t ws heq ht
  rcases List.append_eq_append_iff.1 heq with ⟨read, rfl, hus⟩ | ⟨rest, hts, hrest⟩
  · rw [balance_append, ← Int.add_assoc]
    exact h' read t ws hus ht
  · cases rest with
    | nil =>
      -- The newline is the first token of the second part.
      rw [List.append_nil] at hts
      have := h' [] t ws hrest.symm ht
      rwa [balance_nil, Int.add_zero, hts] at this
    | cons u rest =>
      obtain ⟨rfl, -⟩ := List.cons.inj hrest
      exact h vs t rest hts ht

end Sheltered

/-- **Tokens that no newline cuts**, if `depth` brackets are open around them: they close the brackets
they open, and at each newline among them a bracket is open.  Newlines inside of strings would cut
them too. -/
structure Held (depth : Nat) (ts : List Token) : Prop where
  balance_eq : balance ts = 0
  sheltered : Sheltered depth ts
  strings : ∀ t ∈ ts, t.kind = .string → '\n' ∉ t.text.toList

namespace Held

variable {depth : Nat} {ts us : List Token} {t : Token}

theorem nil : Held depth [] where
  balance_eq := rfl
  sheltered us t vs h := by simp at h
  strings t h := by simp at h

/-- A token that is no bracket and no newline. -/
theorem single (hweight : t.kind.weight = 0) (hline : t.kind ≠ .endOfLine)
    (hstring : t.kind = .string → '\n' ∉ t.text.toList) : Held depth [t] where
  balance_eq := by rw [balance_cons, hweight, balance_nil, Int.add_zero]
  sheltered := .single fun h => absurd h hline
  strings := by rwa [List.forall_mem_singleton]

/-- A newline inside of a bracket. -/
theorem newline (ht : t.kind = .endOfLine) : Held (depth + 1) [t] where
  balance_eq := by
    rw [balance_cons, ht]
    rfl
  sheltered := .single fun _ => by omega
  strings := by
    rw [List.forall_mem_singleton, ht]
    rintro ⟨⟩

/-- More brackets may be open. -/
theorem mono {more : Nat} (h : Held depth ts) (hle : depth ≤ more) : Held more ts where
  balance_eq := h.balance_eq
  sheltered us t vs heq ht := by
    have := h.sheltered us t vs heq ht
    omega
  strings := h.strings

theorem append (h : Held depth ts) (h' : Held depth us) : Held depth (ts ++ us) where
  balance_eq := by rw [balance_append, h.balance_eq, h'.balance_eq, Int.add_zero]
  sheltered := by
    refine h.sheltered.append ?_
    rw [h.balance_eq, Int.add_zero]
    exact h'.sheltered
  strings := List.forall_mem_append.2 ⟨h.strings, h'.strings⟩

theorem cons (h : Held depth [t]) (hts : Held depth ts) : Held depth (t :: ts) :=
  h.append hts

/-- **A pair of brackets** makes up for a bracket less around it. -/
theorem group {opening closing : Token} (ho : opening.kind.isOpener) (hc : closing.kind.isCloser)
    (h : Held (depth + 1) ts) : Held depth (opening :: (ts ++ [closing])) := by
  have hopening : opening.kind.weight = 1 := if_pos ho
  have hclosing : closing.kind.weight = -1 := by
    generalize closing.kind = kind at hc
    cases kind <;> first | rfl | cases hc
  have hbalance : balance [opening] = 1 := by rw [balance_cons, hopening, balance_nil, Int.add_zero]
  have hplain : ∀ kind : Kind, kind.weight ≠ 0 → kind ≠ .endOfLine ∧ kind ≠ .string := by
    rintro kind hk
    constructor <;> rintro rfl <;> exact hk rfl
  obtain ⟨hline, hstring⟩ := hplain opening.kind (by rw [hopening]; decide)
  obtain ⟨hline', hstring'⟩ := hplain closing.kind (by rw [hclosing]; decide)
  refine ⟨?_, ?_, ?_⟩
  · rw [balance_cons, balance_append, balance_cons, hopening, hclosing, h.balance_eq, balance_nil]
    omega
  · have hopen : Sheltered depth [opening] := .single fun hk => absurd hk hline
    refine hopen.append (Sheltered.append ?_ (.single fun hk => absurd hk hline'))
    rw [hbalance]
    exact h.sheltered
  · refine List.forall_mem_cons.2 ⟨fun hk => absurd hk hstring, ?_⟩
    rw [List.forall_mem_append, List.forall_mem_singleton]
    exact ⟨h.strings, fun hk => absurd hk hstring'⟩

end Held

end Token

/-- The brackets that a text leaves open. -/
theorem Session.openBrackets_eq (text : String) :
    openBrackets text = Token.balance (Source.tokens { text := text.toList }) := by
  have hfold : ∀ (ts : List Token) (n : Int), ts.foldl (fun (n : Int) t =>
      if t.kind.isOpener then n + 1 else if t.kind.isCloser then n - 1 else n) n =
      n + Token.balance ts := by
    intro ts
    induction ts with
    | nil => simp
    | cons t ts ih =>
      intro n
      rw [List.foldl_cons, ih, Token.balance_cons, ← Int.add_assoc, Kind.weight]
      by_cases hopen : t.kind.isOpener
      · rw [if_pos hopen, if_pos hopen]
      · by_cases hclose : t.kind.isCloser
        · rw [if_neg hopen, if_neg hopen, if_pos hclose, if_pos hclose, Int.sub_eq_add_neg]
        · rw [if_neg hopen, if_neg hopen, if_neg hclose, if_neg hclose, Int.add_zero]
  rw [openBrackets, hfold, Int.zero_add]

end LimLang
