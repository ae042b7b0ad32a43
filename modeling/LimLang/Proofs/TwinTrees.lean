import LimLang.Proofs.WellFormed
import LimLang.Tree.Reach
import LimLang.Tree.Render
import LimLang.Tree.Same
import Mathlib.Data.List.Forall2

/-! # Twin trees

Two well-formed trees that differ in their tokens only are *twins*.  `Node.Twins` says so constructor by
constructor, in the places in which the trees fit, so that two twins can be taken apart side by side.  A
well-formed tree and one that is the same are twins (`Node.Fits.twins`).

Nothing that is done with a tree besides looking at its tokens tells twins apart: they are rendered
alike, reach equally far, and neither has anything in the place of a link that is none.
-/
namespace LimLang

theorem Ident.name_eq_of_same {i j : Ident} (h : i.same j) : i.name = j.name := by
  rw [same, Bool.and_eq_true] at h
  exact beq_iff_eq.1 h.1

/-- Parameters that are the same are declared alike. -/
theorem Ident.declaration_eq_of_same {i j : Ident} (h : i.same j) :
    i.declaration = j.declaration := by
  rw [same, Bool.and_eq_true, beq_iff_eq, beq_iff_eq] at h
  rw [declaration, declaration, h.1, h.2]

/-- Lists that agree item by item, as a function tells that goes through both. -/
theorem forall₂_of_all {α : Type} {same : α → α → Bool} {sameAll : List α → List α → Bool}
    (hleft : ∀ a as, sameAll (a :: as) [] = false) (hright : ∀ b bs, sameAll [] (b :: bs) = false)
    (hcons : ∀ a as b bs, sameAll (a :: as) (b :: bs) = (same a b && sameAll as bs))
    {as bs : List α} (h : sameAll as bs) : List.Forall₂ (fun a b => same a b) as bs := by
  induction as generalizing bs with
  | nil =>
    cases bs with
    | nil => exact .nil
    | cons b bs =>
      rw [hright] at h
      cases h
  | cons a as ih =>
    cases bs with
    | nil =>
      rw [hleft] at h
      cases h
    | cons b bs =>
      rw [hcons, Bool.and_eq_true] at h
      exact .cons h.1 (ih h.2)

theorem Ident.forall₂_of_sameAll {is js : List Ident} (h : sameAll is js) :
    List.Forall₂ (fun i j => i.same j) is js :=
  forall₂_of_all (fun _ _ => rfl) (fun _ _ => rfl) (fun _ _ _ _ => rfl) h

theorem Ident.names_eq_of_sameAll {is js : List Ident} (h : sameAll is js) :
    is.map name = js.map name := by
  have hsame := forall₂_of_sameAll h
  clear h
  induction hsame with
  | nil => rfl
  | cons h _ ih => rw [List.map_cons, List.map_cons, name_eq_of_same h, ih]

theorem Ident.declarations_eq_of_sameAll {is js : List Ident} (h : sameAll is js) :
    declarations is = declarations js := by
  have hmap : is.map declaration = js.map declaration := by
    have hsame := forall₂_of_sameAll h
    clear h
    induction hsame with
    | nil => rfl
    | cons h _ ih => rw [List.map_cons, List.map_cons, declaration_eq_of_same h, ih]
  rw [declarations, declarations, hmap]

namespace Node

/-- **Twins**: two trees that fit in a place and differ in their tokens only. -/
inductive Twins : Place → Node → Node → Prop
  | ident {i j : Ident} (hi : i.same j) : Twins .expression (.ident i) (.ident j)
  | int {s t : Token} {n : Int} : Twins .expression (.int s n) (.int t n)
  | bool {s t : Token} {b : Bool} : Twins .expression (.bool s b) (.bool t b)
  | string {s t : Token} {text : String} : Twins .expression (.string s text) (.string t text)
  | null {s t : Token} : Twins .expression (.null s) (.null t)
  | array {s t : Token} {as bs : List Node} (hlen : as.length = bs.length)
      (h : ∀ pair ∈ as.zip bs, Twins .expression pair.1 pair.2) :
      Twins .expression (.array s as) (.array t bs)
  | unary {s t : Token} {operator : String} {a b : Node} (h : Twins .expression a b) :
      Twins .expression (.unary s operator a) (.unary t operator b)
  | binary {s t : Token} {operator : String} {a b c d : Node} (hl : Twins .expression a b)
      (hr : Twins .expression c d) :
      Twins .expression (.binary s a operator c) (.binary t b operator d)
  | call {s t : Token} {a b : Node} {as bs : List Node} (hf : Twins .expression a b)
      (hlen : as.length = bs.length) (h : ∀ pair ∈ as.zip bs, Twins .expression pair.1 pair.2) :
      Twins .expression (.call s a as) (.call t b bs)
  | index {s t : Token} {a b c d : Node} (hl : Twins .expression a b) (hp : Twins .expression c d) :
      Twins .expression (.index s a c) (.index t b d)
  | declare {s t : Token} {type : BasicType} {i j : Ident} {a b : Node} (hi : i.same j)
      (h : Twins .expression a b) : Twins .statement (.declare s type i a) (.declare t type j b)
  | declareArray {s t : Token} {kind : String} {i j : Ident} {a b : Node} (hi : i.same j)
      (h : Twins .expression a b) :
      Twins .statement (.declareArray s kind i a) (.declareArray t kind j b)
  | bareReturn {s t : Token} : Twins .statement (.bareReturn s) (.bareReturn t)
  | returnValue {s t : Token} {a b : Node} (h : Twins .expression a b) :
      Twins .statement (.returnValue s a) (.returnValue t b)
  | expression {s t : Token} {a b : Node} (h : Twins .expression a b) :
      Twins .statement (.expression s a) (.expression t b)
  | function {s t : Token} {name : String} {is js : List Ident} {result : Option String} {a b : Node}
      (hp : Ident.sameAll is js) (h : Twins .body a b) :
      Twins .statement (.function s name is result a) (.function t name js result b)
  | branches {a b : Node} (h : Twins .chain a b) : Twins .statement a b
  | ifThen {s t : Token} {a b c d : Node} (hc : Twins .expression a b) (hb : Twins .body c d) :
      Twins .chain (.ifThen s a c) (.ifThen t b d)
  | ifElse {s t : Token} {a b c d m n : Node} (hc : Twins .expression a b) (hb : Twins .body c d)
      (hn : Twins .link m n) : Twins .chain (.ifElse s a c m) (.ifElse t b d n)
  | otherwise {s t : Token} {a b : Node} (hb : Twins .body a b) :
      Twins .link (.otherwise s a) (.otherwise t b)
  | elseIf {a b : Node} (h : Twins .chain a b) : Twins .link a b
  | block {s t : Token} {as bs : List Node} (hlen : as.length = bs.length)
      (h : ∀ pair ∈ as.zip bs, Twins .statement pair.1 pair.2) :
      Twins .body (.block s as) (.block t bs)
  | program {as bs : List Node} (hlen : as.length = bs.length)
      (h : ∀ pair ∈ as.zip bs, Twins .statement pair.1 pair.2) :
      Twins .program (.program as) (.program bs)

/-- Lists of nodes of which each is the same as one of the other list, node by node. -/
theorem forall_zip_of_sameAll {as bs : List Node} {R : Node → Node → Prop}
    (hs : sameAll as bs) (h : ∀ a ∈ as, ∀ b, a.same b → R a b) :
    as.length = bs.length ∧ ∀ pair ∈ as.zip bs, R pair.1 pair.2 := by
  have hsame : List.Forall₂ (fun a b => a.same b) as bs :=
    forall₂_of_all (fun _ _ => rfl) (fun _ _ => rfl) (fun _ _ _ _ => by rw [sameAll]) hs
  have hall := List.forall₂_iff_zip.1 hsame
  refine ⟨hall.1, fun pair hpair => ?_⟩
  obtain ⟨a, b⟩ := pair
  exact h a (List.of_mem_zip hpair).1 b (hall.2 hpair)

/-- **A well-formed tree and one that is the same are twins.** -/
theorem Fits.twins {V : Vocabulary} {place : Place} {a : Node} (h : a.Fits V place) {b : Node}
    (hs : a.same b) : Twins place a b := by
  induction h generalizing b with
  | ident _ =>
    cases b <;> simp only [same, Bool.false_eq_true] at hs
    exact .ident hs
  | int _ =>
    cases b <;> simp only [same, Bool.false_eq_true, beq_iff_eq] at hs
    subst hs
    exact .int
  | bool =>
    cases b <;> simp only [same, Bool.false_eq_true, beq_iff_eq] at hs
    subst hs
    exact .bool
  | string _ =>
    cases b <;> simp only [same, Bool.false_eq_true, beq_iff_eq] at hs
    subst hs
    exact .string
  | null =>
    cases b <;> simp only [same, Bool.false_eq_true] at hs
    exact .null
  | array _ ih =>
    cases b <;> simp only [same, Bool.false_eq_true] at hs
    obtain ⟨hlen, hall⟩ := forall_zip_of_sameAll hs fun a ha b => ih a ha
    exact .array hlen hall
  | unary _ _ ih =>
    cases b <;> simp only [same, Bool.false_eq_true, Bool.and_eq_true, beq_iff_eq] at hs
    obtain ⟨rfl, hs⟩ := hs
    exact .unary (ih hs)
  | binary _ _ _ ihl ihr =>
    cases b <;> simp only [same, Bool.false_eq_true, Bool.and_eq_true, beq_iff_eq] at hs
    obtain ⟨⟨hl, rfl⟩, hr⟩ := hs
    exact .binary (ihl hl) (ihr hr)
  | call _ _ ihf ih =>
    cases b <;> simp only [same, Bool.false_eq_true, Bool.and_eq_true] at hs
    obtain ⟨hlen, hall⟩ := forall_zip_of_sameAll hs.2 fun a ha b => ih a ha
    exact .call (ihf hs.1) hlen hall
  | index _ _ ihl ihp =>
    cases b <;> simp only [same, Bool.false_eq_true, Bool.and_eq_true] at hs
    exact .index (ihl hs.1) (ihp hs.2)
  | declare _ _ ih =>
    cases b <;> simp only [same, Bool.false_eq_true, Bool.and_eq_true, beq_iff_eq] at hs
    obtain ⟨⟨rfl, hi⟩, hs⟩ := hs
    exact .declare hi (ih hs)
  | declareArray _ _ _ ih =>
    cases b <;> simp only [same, Bool.false_eq_true, Bool.and_eq_true, beq_iff_eq] at hs
    obtain ⟨⟨rfl, hi⟩, hs⟩ := hs
    exact .declareArray hi (ih hs)
  | bareReturn =>
    cases b <;> simp only [same, Bool.false_eq_true] at hs
    exact .bareReturn
  | returnValue _ ih =>
    cases b <;> simp only [same, Bool.false_eq_true] at hs
    exact .returnValue (ih hs)
  | expression _ ih =>
    cases b <;> simp only [same, Bool.false_eq_true] at hs
    exact .expression (ih hs)
  | function _ _ _ _ ih =>
    cases b <;> simp only [same, Bool.false_eq_true, Bool.and_eq_true, beq_iff_eq] at hs
    obtain ⟨⟨⟨rfl, hp⟩, rfl⟩, hs⟩ := hs
    exact .function hp (ih hs)
  | branches _ ih => exact .branches (ih hs)
  | ifThen _ _ ihc ihb =>
    cases b <;> simp only [same, Bool.false_eq_true, Bool.and_eq_true] at hs
    exact .ifThen (ihc hs.1) (ihb hs.2)
  | ifElse _ _ _ ihc ihb ihn =>
    cases b <;> simp only [same, Bool.false_eq_true, Bool.and_eq_true] at hs
    exact .ifElse (ihc hs.1.1) (ihb hs.1.2) (ihn hs.2)
  | otherwise _ ihb =>
    cases b <;> simp only [same, Bool.false_eq_true] at hs
    exact .otherwise (ihb hs)
  | elseIf _ ih => exact .elseIf (ih hs)
  | block _ ih =>
    cases b <;> simp only [same, Bool.false_eq_true] at hs
    obtain ⟨hlen, hall⟩ := forall_zip_of_sameAll hs fun a ha b => ih a ha
    exact .block hlen hall
  | program _ ih =>
    cases b <;> simp only [same, Bool.false_eq_true] at hs
    obtain ⟨hlen, hall⟩ := forall_zip_of_sameAll hs fun a ha b => ih a ha
    exact .program hlen hall

theorem sameAll_self {nodes : List Node} (h : ∀ n ∈ nodes, n.same n) : sameAll nodes nodes := by
  induction nodes with
  | nil => rw [sameAll]
  | cons n nodes ih =>
    obtain ⟨hn, hnodes⟩ := List.forall_mem_cons.1 h
    rw [sameAll, hn, ih hnodes, Bool.and_self]

/-- A well-formed tree is the same as itself. -/
theorem Fits.same_self {V : Vocabulary} {place : Place} {a : Node} (h : a.Fits V place) :
    a.same a := by
  have hident : ∀ i : Ident, i.same i := fun i => by
    rw [Ident.same, beq_self_eq_true, beq_self_eq_true, Bool.and_self]
  have hidents : ∀ is : List Ident, Ident.sameAll is is := by
    intro is
    induction is with
    | nil => rfl
    | cons i is ih => rw [Ident.sameAll, hident, ih, Bool.and_self]
  induction h with
  | ident _ => exact hident _
  | array _ ih | block _ ih | program _ ih => exact sameAll_self ih
  | call _ _ ihf ih => rw [same, ihf, sameAll_self ih, Bool.and_self]
  | branches _ ih | elseIf _ ih => exact ih
  | _ => simp_all only [same, beq_self_eq_true, Bool.and_self]

/-! ## What twins have in common -/

/-- **Trees that nothing tells apart** that is done with a tree in order to write it. -/
structure Indistinct (a b : Node) : Prop where
  render_eq : a.render = b.render
  reach_eq : ∀ s : Stride, a.reach s = b.reach s
  misplaced_eq : a.misplaced? = b.misplaced?

theorem indistinct_lists {as bs : List Node} (h : List.Forall₂ Indistinct as bs) :
    renderAll as = renderAll bs ∧ (∀ s : Stride, reachAll s as = reachAll s bs) ∧
      misplacedIn? as = misplacedIn? bs := by
  induction h with
  | nil => exact ⟨rfl, fun _ => rfl, rfl⟩
  | cons h _ ih =>
    obtain ⟨hrender, hreach, hmisplaced⟩ := ih
    refine ⟨?_, fun s => ?_, ?_⟩
    · rw [renderAll, renderAll, h.render_eq, hrender]
    · rw [reachAll, reachAll, h.reach_eq, hreach]
    · rw [misplacedIn?, misplacedIn?, h.misplaced_eq, hmisplaced]

/-- Twins in the place of a link are links. -/
theorem Twins.link {a b : Node} (h : Twins .link a b) :
    a.isLink ∧ b.isLink ∧ a.hasCondition = b.hasCondition := by
  cases h with
  | otherwise _ => exact ⟨rfl, rfl, rfl⟩
  | elseIf h => cases h <;> exact ⟨rfl, rfl, rfl⟩

/-- **Twins are told apart by their tokens alone.** -/
theorem Twins.indistinct {place : Place} {a b : Node} (h : Twins place a b) : Indistinct a b := by
  have hlists : ∀ {as bs : List Node}, as.length = bs.length →
      (∀ pair ∈ as.zip bs, Indistinct pair.1 pair.2) → renderAll as = renderAll bs ∧
        (∀ s : Stride, reachAll s as = reachAll s bs) ∧ misplacedIn? as = misplacedIn? bs :=
    fun hlen hall => indistinct_lists (List.forall₂_iff_zip.2 ⟨hlen, fun h => hall _ h⟩)
  induction h with
  | ident hi => exact ⟨Ident.name_eq_of_same hi, fun _ => rfl, rfl⟩
  | int | bool | string | null | bareReturn => exact ⟨rfl, fun _ => rfl, rfl⟩
  | array hlen _ ih =>
    obtain ⟨hrender, hreach, hmisplaced⟩ := hlists hlen ih
    exact ⟨by rw [render, render, hrender], fun s => by rw [reach, reach, hreach],
      by rw [misplaced?, misplaced?, hmisplaced]⟩
  | call _ hlen _ ihf ih =>
    obtain ⟨hrender, hreach, hmisplaced⟩ := hlists hlen ih
    exact ⟨by rw [render, render, ihf.render_eq, hrender],
      fun s => by rw [reach, reach, ihf.reach_eq, hreach],
      by rw [misplaced?, misplaced?, ihf.misplaced_eq, hmisplaced]⟩
  | block hlen _ ih =>
    obtain ⟨hrender, hreach, hmisplaced⟩ := hlists hlen ih
    exact ⟨by rw [render, render, hrender], fun s => by rw [reach, reach, hreach],
      by rw [misplaced?, misplaced?, hmisplaced]⟩
  | program hlen _ ih =>
    obtain ⟨hrender, hreach, hmisplaced⟩ := hlists hlen ih
    exact ⟨by rw [render, render, hrender], fun s => by rw [reach, reach, hreach],
      by rw [misplaced?, misplaced?, hmisplaced]⟩
  | unary _ ih | returnValue _ ih | expression _ ih | otherwise _ ih =>
    exact ⟨by rw [render, render, ih.render_eq], fun s => by rw [reach, reach, ih.reach_eq],
      by rw [misplaced?, misplaced?, ih.misplaced_eq]⟩
  | binary _ _ ihl ihr | index _ _ ihl ihr | ifThen _ _ ihl ihr =>
    exact ⟨by rw [render, render, ihl.render_eq, ihr.render_eq],
      fun s => by rw [reach, reach, ihl.reach_eq, ihr.reach_eq],
      by rw [misplaced?, misplaced?, ihl.misplaced_eq, ihr.misplaced_eq]⟩
  | declare hi _ ih | declareArray hi _ ih =>
    exact ⟨by rw [render, render, Ident.name_eq_of_same hi, ih.render_eq],
      fun s => by rw [reach, reach, ih.reach_eq], by rw [misplaced?, misplaced?, ih.misplaced_eq]⟩
  | function hp _ ih =>
    exact ⟨by rw [render, render, signature, signature, Ident.declarations_eq_of_sameAll hp,
        ih.render_eq],
      fun s => by rw [reach, reach, ih.reach_eq], by rw [misplaced?, misplaced?, ih.misplaced_eq]⟩
  | ifElse _ _ hn ihc ihb ihn =>
    obtain ⟨hleft, hright, hcondition⟩ := hn.link
    refine ⟨?_, fun s => ?_, ?_⟩
    · rw [render, render, ihc.render_eq, ihb.render_eq, ihn.render_eq, hcondition]
    · rw [reach, reach, ihc.reach_eq, ihb.reach_eq, ihn.reach_eq]
    · rw [misplaced?, misplaced?, ihc.misplaced_eq, ihb.misplaced_eq, if_pos hleft, if_pos hright,
        ihn.misplaced_eq]
  | branches _ ih | elseIf _ ih => exact ih

end Node

end LimLang
