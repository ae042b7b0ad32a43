import LimLang.Diagnostic
import Mathlib.Tactic.Common

/-! # The order of a report

Diagnostics are listed by line and, within a line, by column; those of one place keep their order.  So
a list in which some diagnostics stand on earlier lines than the others is put in order by putting the
two kinds in order, each on its own (`Diagnostic.inOrder_split`).
-/
namespace LimLang

namespace Diagnostic

variable (ds : List Diagnostic)

theorem notAfter_iff (a b : Diagnostic) :
    a.notAfter b = true ↔ a.line < b.line ∨ a.line = b.line ∧ a.start ≤ b.start := by
  simp [notAfter]

theorem notAfter_trans (a b c : Diagnostic) (hab : a.notAfter b = true) (hbc : b.notAfter c = true) :
    a.notAfter c = true := by
  rw [notAfter_iff] at *
  omega

theorem notAfter_total (a b : Diagnostic) : (a.notAfter b || b.notAfter a) = true := by
  rw [Bool.or_eq_true, notAfter_iff, notAfter_iff]
  omega

theorem perm_inOrder : (inOrder ds).Perm ds :=
  List.mergeSort_perm ds notAfter

theorem inOrder_eq_nil_iff : inOrder ds = [] ↔ ds = [] := by
  rw [← List.perm_nil, ← List.perm_nil]
  exact ⟨(perm_inOrder ds).symm.trans, (perm_inOrder ds).trans⟩

theorem sorted_inOrder : (inOrder ds).Pairwise fun a b => a.notAfter b = true :=
  List.pairwise_mergeSort notAfter_trans notAfter_total ds

/-- Diagnostics are listed by line and, within a line, by column. -/
theorem pairwise_inOrder :
    (inOrder ds).Pairwise fun a b => a.line < b.line ∨ a.line = b.line ∧ a.start ≤ b.start :=
  (sorted_inOrder ds).imp fun {a b} h => (notAfter_iff a b).1 h

end Diagnostic

/-- A run of elements ends before those that do not belong to it. -/
theorem takeWhile_append_of_neg {α : Type} {p : α → Bool} (xs : List α) {ys : List α}
    (h : ∀ y ∈ ys, p y = false) :
    (xs ++ ys).takeWhile p = xs.takeWhile p ∧ (xs ++ ys).dropWhile p = xs.dropWhile p ++ ys := by
  induction xs with
  | nil =>
    cases ys with
    | nil => exact ⟨rfl, rfl⟩
    | cons y ys =>
      have hy : ¬ p y = true := by simp [h y List.mem_cons_self]
      exact ⟨List.takeWhile_cons_of_neg hy, List.dropWhile_cons_of_neg hy⟩
  | cons x xs ih =>
    by_cases hx : p x = true
    · simp [hx, ih]
    · simp [hx]

namespace Diagnostic

/-- A diagnostic comes before all that are listed behind it and not before it. -/
theorem inOrder_cons (d : Diagnostic) (ds : List Diagnostic) :
    inOrder (d :: ds) = (inOrder ds).takeWhile (fun b => !d.notAfter b) ++
      d :: (inOrder ds).dropWhile fun b => !d.notAfter b := by
  -- Sorting is stable, so what is put before `d` is what `d` must not come before.
  obtain ⟨before, after, hcons, hds, hbefore⟩ :=
    List.mergeSort_cons notAfter_trans notAfter_total d ds
  have hsorted := sorted_inOrder (d :: ds)
  rw [inOrder, hcons, List.pairwise_append, List.pairwise_cons] at hsorted
  have hafter : ∀ b ∈ after, (!d.notAfter b) = false := fun b hb => by
    rw [hsorted.2.1.1 b hb, Bool.not_true]
  have htake : after.takeWhile (fun b => !d.notAfter b) = [] :=
    (takeWhile_append_of_neg [] hafter).1
  have hdrop : after.dropWhile (fun b => !d.notAfter b) = after :=
    (takeWhile_append_of_neg [] hafter).2
  rw [inOrder, inOrder, hcons, hds, List.takeWhile_append_of_pos hbefore,
    List.dropWhile_append_of_pos hbefore, htake, hdrop, List.append_nil]

/-- **What stands on earlier lines comes first**, and the rest is put in order on its own. -/
theorem inOrder_split (n : Int) (ds : List Diagnostic) :
    inOrder ds = inOrder (ds.filter fun d => d.line < n) ++
      inOrder (ds.filter fun d => ¬ d.line < n) := by
  induction ds with
  | nil => simp [inOrder]
  | cons d ds ih =>
    have hearly : ∀ a ∈ inOrder (ds.filter fun d => d.line < n), a.line < n := fun a ha => by
      simpa using (List.mem_filter.1 ((perm_inOrder _).mem_iff.1 ha)).2
    have hlate : ∀ b ∈ inOrder (ds.filter fun d => ¬ d.line < n), ¬ b.line < n := fun b hb => by
      simpa using (List.mem_filter.1 ((perm_inOrder _).mem_iff.1 hb)).2
    rw [inOrder_cons, ih]
    -- The diagnostic is put in its place among the earlier ones, or behind all of them.
    by_cases hd : d.line < n
    · have hpast : ∀ b ∈ inOrder (ds.filter fun d => ¬ d.line < n), (!d.notAfter b) = false := by
        intro b hb
        have := hlate b hb
        rw [(notAfter_iff d b).2 (.inl (by omega)), Bool.not_true]
      obtain ⟨htake, hdrop⟩ :=
        takeWhile_append_of_neg (inOrder (ds.filter fun d => d.line < n)) hpast
      rw [htake, hdrop, List.filter_cons_of_pos (by simpa using hd),
        List.filter_cons_of_neg (by simpa using hd), inOrder_cons]
      simp
    · have hpast : ∀ a ∈ inOrder (ds.filter fun d => d.line < n), (!d.notAfter a) = true := by
        intro a ha
        have := hearly a ha
        rw [Bool.not_eq_true', ← Bool.not_eq_true, notAfter_iff]
        omega
      rw [List.takeWhile_append_of_pos hpast, List.dropWhile_append_of_pos hpast,
        List.filter_cons_of_neg (by simpa using hd), List.filter_cons_of_pos (by simpa using hd),
        inOrder_cons]
      simp

/-- Two lists, each with earlier diagnostics in front of later ones. -/
theorem inOrder_append_append (n : Int) {early late early' late' : List Diagnostic}
    (hearly : ∀ d ∈ early ++ early', d.line < n) (hlate : ∀ d ∈ late ++ late', ¬ d.line < n) :
    inOrder ((early ++ late) ++ (early' ++ late')) =
      inOrder (early ++ early') ++ inOrder (late ++ late') := by
  have hkeep : ∀ {ds : List Diagnostic}, (∀ d ∈ ds, d.line < n) →
      (ds.filter fun d => d.line < n) = ds ∧ (ds.filter fun d => ¬ d.line < n) = [] := by
    intro ds hds
    exact ⟨List.filter_eq_self.2 (by simpa using hds), List.filter_eq_nil_iff.2 (by simpa using hds)⟩
  have hdrop : ∀ {ds : List Diagnostic}, (∀ d ∈ ds, ¬ d.line < n) →
      (ds.filter fun d => d.line < n) = [] ∧ (ds.filter fun d => ¬ d.line < n) = ds := by
    intro ds hds
    exact ⟨List.filter_eq_nil_iff.2 (by simpa using hds), List.filter_eq_self.2 (by simpa using hds)⟩
  obtain ⟨he, he'⟩ := List.forall_mem_append.1 hearly
  obtain ⟨hl, hl'⟩ := List.forall_mem_append.1 hlate
  rw [inOrder_split n]
  simp only [List.filter_append, hkeep he, hkeep he', hdrop hl, hdrop hl', List.append_nil,
    List.nil_append]

end Diagnostic

end LimLang
