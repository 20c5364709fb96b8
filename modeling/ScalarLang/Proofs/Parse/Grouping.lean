import ScalarLang.Operator.Table
import ScalarLang.Syntax.Expr
import Mathlib.Tactic.Linarith

/-!
# What a chain of operands means

A chain is cut at the operator that binds least; among several of them, at the last. Both sides are
chains again.
-/
namespace ScalarLang

/-- An operator of a chain with the operand after it, and the tokens that the operand is written
with. -/
structure Link where
  op : Token
  operand : Expr
  tokens : List Token

namespace Link

/-- How tightly the operator binds. -/
def rank (ops : OperatorTable) (link : Link) : Int := ops.precedence link.op

def written (link : Link) : List Token := link.op :: link.tokens

end Link

/-- A row of links, cut at one of them. -/
structure Cut where
  left : List Link
  middle : Link
  right : List Link

namespace Cut

def links (c : Cut) : List Link := c.left ++ c.middle :: c.right

/-- The middle is the last among the links that bind least. -/
structure Lowest (ops : OperatorTable) (c : Cut) : Prop where
  left : ∀ link ∈ c.left, c.middle.rank ops ≤ link.rank ops
  right : ∀ link ∈ c.right, c.middle.rank ops < link.rank ops

end Cut

theorem Cut.Lowest.le_of_mem {ops : OperatorTable} {c : Cut} (h : c.Lowest ops) :
    ∀ link ∈ c.links, c.middle.rank ops ≤ link.rank ops := by
  intro link hlink
  rcases List.mem_append.1 hlink with hlink | hlink
  · exact h.left link hlink
  · rcases List.mem_cons.1 hlink with rfl | hlink
    · exact le_refl _
    · exact le_of_lt (h.right link hlink)

/-- Cuts a row at the last among the links that bind least. -/
def cut (ops : OperatorTable) : Link → List Link → Cut
  | link, [] => ⟨[], link, []⟩
  | link, next :: rest =>
    let c := cut ops next rest
    if c.middle.rank ops ≤ link.rank ops then ⟨link :: c.left, c.middle, c.right⟩
    else ⟨[], link, next :: rest⟩

section Cutting

variable (ops : OperatorTable)

theorem links_cut (link : Link) (rest : List Link) :
    (cut ops link rest).links = link :: rest := by
  induction rest generalizing link with
  | nil => rfl
  | cons next rest ih =>
    have hnext := ih next
    simp only [cut]
    split
    · rw [← hnext]
      rfl
    · rfl

theorem lowest_cut (link : Link) (rest : List Link) : (cut ops link rest).Lowest ops := by
  induction rest generalizing link with
  | nil =>
    constructor
    · intro l hl
      cases hl
    · intro l hl
      cases hl
  | cons next rest ih =>
    have hnext := ih next
    simp only [cut]
    split
    · next hle =>
      constructor
      · intro l hl
        rcases List.mem_cons.1 hl with rfl | hl
        · exact hle
        · exact hnext.left l hl
      · exact hnext.right
    · next hgt =>
      constructor
      · intro l hl
        cases hl
      · intro l hl
        -- The first link binds less than the lowest of the others, so less than each of them.
        have hge : (cut ops next rest).middle.rank ops ≤ l.rank ops := by
          refine hnext.le_of_mem l ?_
          rw [links_cut]
          exact hl
        exact lt_of_lt_of_le (not_le.1 hgt) hge

variable {ops}

theorem Cut.Lowest.right_of {c d : Cut} (hc : c.Lowest ops) (hd : d.Lowest ops)
    {between : List Link} (hleft : d.left = c.left ++ between)
    (hright : c.middle :: c.right = between ++ d.middle :: d.right) : c = d := by
  obtain ⟨left, middle, right⟩ := c
  obtain ⟨left', middle', right'⟩ := d
  simp only at hleft hright
  cases between with
  | nil =>
    rw [List.append_nil] at hleft
    cases hright
    rw [hleft]
  | cons link between =>
    -- Each middle would bind less than the other.
    cases hright
    have hge : middle'.rank ops ≤ middle.rank ops := by
      refine hd.left middle ?_
      simp only [hleft]
      exact List.mem_append_right _ (List.mem_cons_self ..)
    have hlt : middle.rank ops < middle'.rank ops :=
      hc.right middle' (List.mem_append_right _ (List.mem_cons_self ..))
    omega

theorem Cut.Lowest.unique {c d : Cut} (hc : c.Lowest ops) (hd : d.Lowest ops)
    (h : c.links = d.links) : c = d := by
  rcases List.append_eq_append_iff.1 h with ⟨between, hleft, hright⟩ | ⟨between, hleft, hright⟩
  · exact hc.right_of hd hleft hright
  · exact (hd.right_of hc hleft hright).symm

end Cutting

/-- The tree of a chain. -/
def group (ops : OperatorTable) (first : Expr) : List Link → Expr
  | [] => first
  | link :: rest =>
    let c := cut ops link rest
    .binary c.middle.op.word (group ops first c.left) (group ops c.middle.operand c.right)
      c.middle.op.location
termination_by links => links.length
decreasing_by
  all_goals
    have hlength := congrArg List.length (links_cut ops link rest)
    simp only [Cut.links, List.length_append, List.length_cons] at hlength ⊢
    omega

section Grouping

variable {ops : OperatorTable}

@[simp] theorem group_nil (first : Expr) : group ops first [] = first := by
  rw [group]

/-- A chain means what the two sides of a lowest cut mean, joined by the operator between them. -/
theorem group_links {c : Cut} (hc : c.Lowest ops) (first : Expr) :
    group ops first c.links =
      .binary c.middle.op.word (group ops first c.left) (group ops c.middle.operand c.right)
        c.middle.op.location := by
  cases hlinks : c.links with
  | nil =>
    have hlength := congrArg List.length hlinks
    simp [Cut.links] at hlength
  | cons link rest =>
    have heq : cut ops link rest = c := by
      refine (lowest_cut ops link rest).unique hc ?_
      rw [links_cut, hlinks]
    rw [group, heq]

/-- A link takes the operands after it that bind tighter, up to one that does not. What they mean
together is then the first operand of the chain that is left. -/
theorem group_absorb {link : Link} {tight loose : List Link} (first : Expr)
    (htight : ∀ l ∈ tight, link.rank ops < l.rank ops)
    (hloose : ∀ l ∈ loose.head?, l.rank ops ≤ link.rank ops) :
    group ops first (link :: tight ++ loose) =
      group ops (.binary link.op.word first (group ops link.operand tight) link.op.location)
        loose := by
  induction hlength : loose.length using Nat.strong_induction_on generalizing loose with
  | _ n ih =>
    cases loose with
    | nil =>
      have hc : (Cut.mk [] link tight).Lowest ops := ⟨by simp, htight⟩
      have hsplit := group_links hc first
      simp only [Cut.links, List.nil_append, group_nil] at hsplit
      rw [List.append_nil, group_nil, hsplit]
    | cons next rest =>
      -- The lowest link of the rest is the lowest of all.
      have hd := lowest_cut ops next rest
      have hlinks := links_cut ops next rest
      generalize cut ops next rest = d at hd hlinks
      obtain ⟨left, middle, right⟩ := d
      have hnext : next.rank ops ≤ link.rank ops := hloose next rfl
      have hmiddle : middle.rank ops ≤ link.rank ops := by
        have hle := hd.le_of_mem next (by rw [hlinks]; exact List.mem_cons_self ..)
        exact le_trans hle hnext
      have hhead : ∀ l ∈ left.head?, l.rank ops ≤ link.rank ops := by
        cases left with
        | nil => simp
        | cons l left =>
          cases hlinks
          simpa using hnext
      have hwhole : (Cut.mk (link :: tight ++ left) middle right).Lowest ops := by
        refine ⟨fun l hl => ?_, hd.right⟩
        rcases List.mem_append.1 hl with hl | hl
        · rcases List.mem_cons.1 hl with rfl | hl
          · exact hmiddle
          · exact le_of_lt (lt_of_le_of_lt hmiddle (htight l hl))
        · exact hd.left l hl
      have hshorter : left.length < n := by
        rw [← hlength, ← hlinks]
        simp [Cut.links]
      have hsplit := group_links hwhole first
      have hrest := group_links hd
        (.binary link.op.word first (group ops link.operand tight) link.op.location)
      simp only [Cut.links, List.append_assoc] at hsplit hrest hlinks
      rw [← hlinks, hsplit, hrest, ih left.length hshorter hhead rfl]

end Grouping
end ScalarLang
