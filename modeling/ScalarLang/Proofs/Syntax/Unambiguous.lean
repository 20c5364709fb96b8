import ScalarLang.Proofs.Decimal.Written
import ScalarLang.Proofs.Operator.Installed
import ScalarLang.Proofs.Syntax.Bracketed
import ScalarLang.Proofs.Token.Layout
import ScalarLang.Syntax.Printer

/-!
# Printed trees can be told apart

An expression is printed as a tree of words in parentheses, and the words show what it was: numbers
start with a digit, names with a letter, and operators with neither. So forms and expressions with
the same text are the same up to places.
-/
namespace ScalarLang

/-! ### What can be printed -/

/-- Names that can be read, operators that some table has, and numbers that are finite and not
negative. -/
inductive Expr.Printable : Expr → Prop
  | number {value : Float} (hfinite : value.isFinite = true) (hnonneg : 0.0 ≤ value)
      (location : Option Location) : Printable (.number value location)
  | var {name : String} (h : IsName name) (location : Option Location) :
      Printable (.var name location)
  | binary {ops : OperatorTable} {op : String} {lhs rhs : Expr} (hops : ops.Reachable)
      (hop : ops.has (.text op) = true) (hlhs : Printable lhs) (hrhs : Printable rhs)
      (location : Option Location) : Printable (.binary op lhs rhs location)
  | call {callee : String} {args : List Expr} (h : IsName callee)
      (hargs : ∀ arg ∈ args, Printable arg) (location : Option Location) :
      Printable (.call callee args location)

/-- A prototype without a name may have parameters here. -/
structure Prototype.Printable (p : Prototype) : Prop where
  name : p.isAnonymous = true ∨ IsName p.name
  params : ∀ param ∈ p.params, IsName param

/-- Whatever is printed: an expression of its own, or a form. -/
inductive Tree where
  | expression (e : Expr)
  | form (f : Form)

namespace Tree

def Printable : Tree → Prop
  | expression e => e.Printable
  | form (.function f) => f.prototype.Printable ∧ f.body.Printable
  | form (.external p) => p.Printable

def print : Tree → String
  | expression e => e.print
  | form f => f.print

/-- Whether two trees are of the same kind, and the same up to places. -/
def same : Tree → Tree → Bool
  | expression e, expression e' => e.same e'
  | form (.function f), form (.function g) => f.same g
  | form (.external p), form (.external q) => p.same q
  | _, _ => false

end Tree

/-! ### What is printed, as a tree of atoms -/

open Bracketed (ofString ofString_injective write writeRest Undivided WellFormed isInner)

namespace Expr

mutual

/-- The tree of atoms that is printed for an expression. -/
def bracketed : Expr → Bracketed
  | number value _ => ofString (Decimal.plain value)
  | var name _ => ofString name
  | binary op lhs rhs _ => .row [ofString op, bracketed lhs, bracketed rhs]
  | call callee args _ => .row (ofString callee :: bracketedAll args)

def bracketedAll : List Expr → List Bracketed
  | [] => []
  | e :: rest => bracketed e :: bracketedAll rest

end

theorem bracketedAll_eq_map (es : List Expr) : bracketedAll es = es.map bracketed := by
  induction es with
  | nil => rfl
  | cons e rest ih => rw [bracketedAll, ih, List.map_cons]

mutual

theorem toList_print : ∀ e : Expr, e.print.toList = write e.bracketed
  | number _ _ => rfl
  | var _ _ => rfl
  | binary op lhs rhs _ => by
    simp [print, bracketed, ofString, write, writeRest, toList_print lhs, toList_print rhs]
  | call callee args _ => by
    simp [print, bracketed, ofString, write, toList_printArgs args]

theorem toList_printArgs : ∀ args : List Expr,
    (printArgs args).toList ++ [')'] = writeRest (bracketedAll args)
  | [] => rfl
  | e :: rest => by
    simp [printArgs, bracketedAll, writeRest, toList_print e, toList_printArgs rest]

end

end Expr

namespace Prototype

/-- What stands for the name. -/
def heading (p : Prototype) : String := if p.isAnonymous then "<anon>" else p.name

/-- The parameters as a row. -/
def row (p : Prototype) : Bracketed := .row (p.params.map ofString)

theorem toList_intercalate (first : String) (rest : List String) :
    (" ".intercalate (first :: rest)).toList ++ [')'] =
      first.toList ++ writeRest (rest.map ofString) := by
  induction rest generalizing first with
  | nil => simp [writeRest]
  | cons second rest ih =>
    rw [String.intercalate_cons_cons, String.toList_append, List.append_assoc, ih second]
    simp [writeRest, ofString, write]

theorem toList_row (p : Prototype) :
    write p.row = '(' :: ((" ".intercalate p.params).toList ++ [')']) := by
  unfold row
  cases p.params with
  | nil => rfl
  | cons first rest => rw [List.map_cons, write, toList_intercalate, ofString, write]

theorem toList_signature (p : Prototype) :
    p.signature.toList = p.heading.toList ++ ' ' :: write p.row := by
  simp [signature, heading, toList_row]

end Prototype

namespace Tree

/-- The tree of atoms that is printed. -/
def bracketed : Tree → Bracketed
  | expression e => e.bracketed
  | form (.function f) =>
    .row [ofString "def", ofString f.prototype.heading, f.prototype.row, f.body.bracketed]
  | form (.external p) => .row [ofString "extern", ofString p.heading, p.row]

theorem toList_print (t : Tree) : t.print.toList = write t.bracketed := by
  match t with
  | expression e => exact e.toList_print
  | form (.function f) =>
    simp [print, Form.print, Function.print, bracketed, ofString, write, writeRest,
      Prototype.toList_signature, Expr.toList_print]
  | form (.external p) =>
    simp [print, Form.print, Prototype.print, bracketed, ofString, write, writeRest,
      Prototype.toList_signature]

end Tree

/-! ### Kinds of atoms -/

theorem undivided_of_isNumeral {text : List Char} (h : Decimal.IsNumeral text) :
    Undivided text := by
  have hdigit : ∀ {c : Char}, c.isDigit = true → isInner c = true :=
    Bracketed.isInner_of_class rfl
  have hmark : ∀ c ∈ Decimal.marks, isInner c = true := List.all_eq_true.1 rfl
  obtain ⟨hfirst, hrest⟩ := h
  refine ⟨List.cons_ne_nil _ _, fun c hc => ?_⟩
  rcases List.mem_cons.1 hc with rfl | hc
  · exact hdigit hfirst
  · rcases hrest c hc with h | h
    · exact hdigit h
    · exact hmark c h

namespace IsName

variable {name : String}

theorem undivided (h : IsName name) : Undivided name.toList where
  ne_nil := by
    obtain ⟨first, rest, heq, _⟩ := h.wordlike
    rw [heq]
    exact List.cons_ne_nil _ _
  inner c hc := Bracketed.isInner_of_class rfl (h.wordlike.alphanum c hc)

theorem ne_numeral (h : IsName name) {text : List Char} (htext : Decimal.IsNumeral text) :
    name.toList ≠ text := by
  intro heq
  obtain ⟨first, rest, hname, hletter, _⟩ := h.wordlike
  obtain ⟨hdigit, _⟩ := htext
  rw [hname] at heq
  obtain ⟨rfl, _⟩ := List.cons.inj heq
  have hlow := toNat_of_isAlpha hletter
  have hhigh := toNat_of_isDigit hdigit
  omega

theorem ne_operator (h : IsName name) {c : Char} (hc : OperatorTable.isOperator c = true) :
    name.toList ≠ [c] := by
  intro heq
  have halnum := h.wordlike.alphanum c (by rw [heq]; exact List.mem_singleton_self c)
  simp [OperatorTable.isOperator, halnum] at hc

end IsName

namespace OperatorTable

theorem Reachable.single_of_has {ops : OperatorTable} (hops : ops.Reachable) {op : String}
    (hop : ops.has (.text op) = true) : ∃ c, op.toList = [c] ∧ isOperator c = true := by
  rcases precedenceOf_cases ops op with ⟨_, c, p, hc, hp, _⟩ | ⟨hno, _⟩
  · exact ⟨c, hc, hops.visible c p hp⟩
  · rw [hop] at hno
    cases hno

theorem undivided_of_single {op : String} {c : Char} (h : op.toList = [c])
    (hc : isOperator c = true) : Undivided op.toList := by
  rw [h]
  refine ⟨List.cons_ne_nil _ _, fun d hd => ?_⟩
  rw [List.mem_singleton.1 hd]
  exact Bracketed.isInner_of_class rfl hc

end OperatorTable

namespace Prototype.Printable

variable {p q : Prototype}

theorem undivided_heading (h : p.Printable) : Undivided p.heading.toList := by
  unfold heading
  split
  · exact ⟨by decide, List.all_eq_true.1 rfl⟩
  · next hno => exact (h.name.resolve_left hno).undivided

theorem wellFormed_row (h : p.Printable) : p.row.WellFormed := by
  refine .row fun item hitem => ?_
  obtain ⟨param, hparam, rfl⟩ := List.mem_map.1 hitem
  exact .atom (h.params param hparam).undivided

/-- Prototypes with the same name and the same row of parameters are the same up to places. -/
theorem same_of_eq (hp : p.Printable) (hq : q.Printable) (hheading : p.heading = q.heading)
    (hrow : p.row = q.row) : p.same q = true := by
  have hanonymous : ¬ IsName "<anon>" := by
    intro h
    have halnum := h.wordlike.alphanum '<' (by decide)
    cases halnum
  have hname : p.name = q.name := by
    unfold heading at hheading
    split at hheading
    · next hpname =>
      split at hheading
      · next hqname => rw [String.isEmpty_iff.1 hpname, String.isEmpty_iff.1 hqname]
      · next hqname => exact absurd (hheading ▸ hq.name.resolve_left hqname) hanonymous
    · next hpname =>
      split at hheading
      · exact absurd (hheading ▸ hp.name.resolve_left hpname) hanonymous
      · exact hheading
  have hparams : p.params = q.params :=
    List.map_injective_iff.2 ofString_injective (Bracketed.row.inj hrow)
  simp [same, hname, hparams]

end Prototype.Printable

namespace Expr

/-! ### Expressions -/

theorem Printable.wellFormed {e : Expr} (h : e.Printable) : e.bracketed.WellFormed := by
  induction h with
  | @number value hfinite hnonneg location =>
    obtain ⟨bits, hbits⟩ := Decimal.exists_unsigned hfinite hnonneg
    exact .atom (undivided_of_isNumeral hbits.plain_spec.1)
  | var hname location => exact .atom hname.undivided
  | @binary ops op lhs rhs hops hop _ _ location hlhs hrhs =>
    obtain ⟨c, hc, hfree⟩ := hops.single_of_has hop
    have hoperator : Undivided op.toList := OperatorTable.undivided_of_single hc hfree
    exact .cons (.atom hoperator) (.cons hlhs (.cons hrhs .nil))
  | @call callee args hname _ location hargs =>
    refine .cons (.atom hname.undivided) (.row fun item hitem => ?_)
    rw [bracketedAll_eq_map] at hitem
    obtain ⟨arg, harg, rfl⟩ := List.mem_map.1 hitem
    exact hargs arg harg

/-- Rows of arguments are the same as soon as the arguments are. -/
theorem sameAll_of_bracketedAll {args args' : List Expr}
    (hsame : ∀ arg ∈ args, ∀ arg' ∈ args', arg.bracketed = arg'.bracketed → arg.same arg' = true)
    (h : bracketedAll args = bracketedAll args') : sameAll args args' = true := by
  induction args generalizing args' with
  | nil =>
    cases args' with
    | nil => rfl
    | cons arg' args' => cases h
  | cons arg args ih =>
    cases args' with
    | nil => cases h
    | cons arg' args' =>
      obtain ⟨hfirst, hrest⟩ := List.cons.inj h
      have hargs := ih (fun a ha b hb => hsame a (List.mem_cons_of_mem _ ha) b
        (List.mem_cons_of_mem _ hb)) hrest
      rw [sameAll, hsame arg List.mem_cons_self arg' List.mem_cons_self hfirst, hargs]
      rfl

/-- Expressions that are printed as the same tree of atoms are the same up to places. -/
theorem Printable.same_of_eq {e e' : Expr} (he : e.Printable) (he' : e'.Printable)
    (h : e.bracketed = e'.bracketed) : e.same e' = true := by
  induction he generalizing e' with
  | @number value hfinite hnonneg location =>
    obtain ⟨bits, hbits⟩ := Decimal.exists_unsigned hfinite hnonneg
    cases he' with
    | @number value' hfinite' hnonneg' location' =>
      have htext := ofString_injective h
      rw [same, Decimal.beq_of_plain_eq hfinite hnonneg hfinite' hnonneg' htext, Bool.true_or]
    | var hname location' =>
      exact absurd (Bracketed.atom.inj h).symm (hname.ne_numeral hbits.plain_spec.1)
    | binary => cases h
    | call => cases h
  | @var name hname location =>
    cases he' with
    | @number value' hfinite' hnonneg' location' =>
      obtain ⟨bits, hbits⟩ := Decimal.exists_unsigned hfinite' hnonneg'
      exact absurd (Bracketed.atom.inj h) (hname.ne_numeral hbits.plain_spec.1)
    | @var name' hname' location' =>
      rw [same, ofString_injective h, beq_self_eq_true]
    | binary => cases h
    | call => cases h
  | @binary ops op lhs rhs hops hop _ _ location hlhs hrhs =>
    cases he' with
    | number => cases h
    | var => cases h
    | @binary ops' op' lhs' rhs' hops' hop' hlhs' hrhs' location' =>
      have hitems := Bracketed.row.inj h
      simp only [List.cons.injEq, and_true] at hitems
      obtain ⟨hoperator, hleft, hright⟩ := hitems
      rw [same, ofString_injective hoperator, hlhs hlhs' hleft, hrhs hrhs' hright, beq_self_eq_true]
      rfl
    | @call callee args hname hargs location' =>
      obtain ⟨c, hc, hfree⟩ := hops.single_of_has hop
      have hhead := Bracketed.atom.inj (List.cons.inj (Bracketed.row.inj h)).1
      exact absurd (hhead.symm.trans hc) (hname.ne_operator hfree)
  | @call callee args hname _ location hargs =>
    cases he' with
    | number => cases h
    | var => cases h
    | @binary ops' op' lhs' rhs' hops' hop' hlhs' hrhs' location' =>
      obtain ⟨c, hc, hfree⟩ := hops'.single_of_has hop'
      have hhead := Bracketed.atom.inj (List.cons.inj (Bracketed.row.inj h)).1
      exact absurd (hhead.trans hc) (hname.ne_operator hfree)
    | @call callee' args' hname' hargs' location' =>
      obtain ⟨hhead, hrest⟩ := List.cons.inj (Bracketed.row.inj h)
      have hall := sameAll_of_bracketedAll
        (fun arg harg arg' harg' => hargs arg harg (hargs' arg' harg')) hrest
      rw [same, ofString_injective hhead, hall, beq_self_eq_true]
      rfl

/-- No expression is printed like a form. -/
theorem Printable.ne_keyword {e : Expr} (h : e.Printable) {text : String} {items : List Bracketed}
    (heq : e.bracketed = .row (ofString text :: items)) : text ≠ "def" ∧ text ≠ "extern" := by
  cases h with
  | number => cases heq
  | var => cases heq
  | @binary ops op lhs rhs hops hop _ _ location =>
    obtain ⟨c, hc, _⟩ := hops.single_of_has hop
    obtain rfl := ofString_injective (List.cons.inj (Bracketed.row.inj heq)).1
    refine ⟨?_, ?_⟩
    all_goals
      rintro rfl
      cases hc
  | @call callee args hname _ location =>
    obtain rfl := ofString_injective (List.cons.inj (Bracketed.row.inj heq)).1
    exact ⟨hname.define, hname.external⟩

end Expr

/-! ### Forms and expressions -/

namespace Tree

theorem Printable.wellFormed {t : Tree} (h : t.Printable) : t.bracketed.WellFormed := by
  match t with
  | expression e => exact Expr.Printable.wellFormed h
  | form (.function f) =>
    obtain ⟨hprototype, hbody⟩ := h
    have hkeyword : Undivided "def".toList := ⟨by decide, List.all_eq_true.1 rfl⟩
    have hheading : Undivided f.prototype.heading.toList := hprototype.undivided_heading
    exact .cons (.atom hkeyword) (.cons (.atom hheading)
      (.cons hprototype.wellFormed_row (.cons hbody.wellFormed .nil)))
  | form (.external p) =>
    have hprototype : p.Printable := h
    have hkeyword : Undivided "extern".toList := ⟨by decide, List.all_eq_true.1 rfl⟩
    have hheading : Undivided p.heading.toList := hprototype.undivided_heading
    exact .cons (.atom hkeyword) (.cons (.atom hheading) (.cons hprototype.wellFormed_row .nil))

/-- Trees that are printed as the same tree of atoms are of the same kind, and the same up to
places. -/
theorem Printable.same_of_eq {t u : Tree} (ht : t.Printable) (hu : u.Printable)
    (h : t.bracketed = u.bracketed) : t.same u = true := by
  match t, u with
  | expression e, expression e' => exact Expr.Printable.same_of_eq ht hu h
  | expression e, form (.function g) => exact absurd rfl (Expr.Printable.ne_keyword ht h).1
  | expression e, form (.external q) => exact absurd rfl (Expr.Printable.ne_keyword ht h).2
  | form (.function f), expression e' =>
    exact absurd rfl (Expr.Printable.ne_keyword hu h.symm).1
  | form (.external p), expression e' =>
    exact absurd rfl (Expr.Printable.ne_keyword hu h.symm).2
  | form (.function f), form (.external q) =>
    have hkeyword := ofString_injective (List.cons.inj (Bracketed.row.inj h)).1
    exact absurd hkeyword (by decide)
  | form (.external p), form (.function g) =>
    have hkeyword := ofString_injective (List.cons.inj (Bracketed.row.inj h)).1
    exact absurd hkeyword (by decide)
  | form (.function f), form (.function g) =>
    have hitems := Bracketed.row.inj h
    simp only [List.cons.injEq, and_true, true_and] at hitems
    obtain ⟨hheading, hrow, hbody⟩ := hitems
    have hprototype := ht.1.same_of_eq hu.1 (ofString_injective hheading) hrow
    rw [same, Function.same, hprototype, ht.2.same_of_eq hu.2 hbody]
    rfl
  | form (.external p), form (.external q) =>
    have hitems := Bracketed.row.inj h
    simp only [List.cons.injEq, and_true, true_and] at hitems
    obtain ⟨hheading, hrow⟩ := hitems
    exact Prototype.Printable.same_of_eq ht hu (ofString_injective hheading) hrow

/-- Forms and expressions with the same text are of the same kind, and the same up to places. -/
theorem same_of_print_eq {t u : Tree} (ht : t.Printable) (hu : u.Printable)
    (h : t.print = u.print) : t.same u = true := by
  refine ht.same_of_eq hu (Bracketed.eq_of_write_eq ht.wellFormed hu.wellFormed ?_)
  rw [← toList_print, ← toList_print, h]

/-- A function with a number in its body. -/
def functionWith (value : Float) (place : Option Location) : Tree :=
  form (.function ⟨⟨"f", ["x"], place⟩,
    .binary "+" (.call "f" [.number value none] none) (.var "x" none) place⟩)

theorem printable_functionWith {value : Float} (hfinite : value.isFinite = true)
    (hnonneg : 0.0 ≤ value) (place : Option Location) : (functionWith value place).Printable := by
  have hf : IsName "f" := ⟨⟨'f', [], rfl, rfl, by simp⟩, by decide, by decide⟩
  have hx : IsName "x" := ⟨⟨'x', [], rfl, rfl, by simp⟩, by decide, by decide⟩
  refine ⟨⟨Or.inr hf, by simp [hx]⟩, .binary .standard rfl (.call hf ?_ _) (.var hx _) _⟩
  intro arg harg
  rw [List.mem_singleton.1 harg]
  exact .number hfinite hnonneg none

theorem print_functionWith {value value' : Float} (h : Decimal.plain value = Decimal.plain value')
    (place place' : Option Location) :
    (functionWith value place).print = (functionWith value' place').print := by
  have hsignature : Prototype.signature ⟨"f", ["x"], place⟩ =
      Prototype.signature ⟨"f", ["x"], place'⟩ := rfl
  simp only [functionWith, print, Form.print, Function.print, Expr.print, Expr.printArgs, h,
    hsignature]

/-- The two zeros are printed alike, and they are equal. -/
theorem same_of_print_eq_zeros :
    (functionWith 0.0 none).Printable ∧ (functionWith (-0.0) (some default)).Printable ∧
      (functionWith 0.0 none).print = (functionWith (-0.0) (some default)).print ∧
      (functionWith 0.0 none).same (functionWith (-0.0) (some default)) = true := by
  have hleft : (functionWith 0.0 none).Printable := printable_functionWith rfl (by decide) none
  have hright : (functionWith (-0.0) (some default)).Printable :=
    printable_functionWith rfl (by decide) (some default)
  have hzeros : Decimal.plain 0.0 = Decimal.plain (-0.0) := by decide +kernel
  have hprint := print_functionWith hzeros none (some default)
  exact ⟨hleft, hright, hprint, same_of_print_eq hleft hright hprint⟩

end Tree
end ScalarLang
