import Mathlib
import ScalarLang.Proofs.Parse.Completeness

/-!
# Precedence

What precedence climbing makes of a chain of operands. The token behind the chain must neither go on
with it nor turn a name at its end into a call.
-/
namespace ScalarLang.Parse

variable {ops : OperatorTable}

/-- A chain of operands is read as the tree that cutting it at its lowest operators gives, and the
reader then stands behind it. Climbing from any precedence takes the longest beginning of the chain
whose operators all bind that tightly, and gives the tree of that beginning. -/
theorem chain_is_grouped_by_precedence (hops : ops.Reachable) {first : Expr} {ts : List Token}
    {links : List Link} {r after : Reader} {next : Token} (hfirst : Reading ops (.operand first) ts)
    (hjoins : ∀ link ∈ links, ops.Joins link.op)
    (hlinks : ∀ link ∈ links, Reading ops (.operand link.operand) link.tokens)
    (hp : r.PassesTo (ts ++ links.flatMap Link.written) next after) (hno : ¬ ops.Joins next) :
    Settles (expression ops) r (group ops first links) after ∧
      ∀ (least : Int) (lhs : Expr) (start : Reader), 0 ≤ least →
        start.Passes (links.flatMap Link.written) after →
        ∃ middle,
          start.Passes ((links.takeWhile (Link.reaches ops least)).flatMap Link.written) middle ∧
          Settles (fun depth => climb ops depth least lhs) start
            (group ops lhs (links.takeWhile (Link.reaches ops least))) middle := by
  constructor
  · have hreading := Reading.chain hfirst hjoins hlinks
    exact phraseSettles_of_reading hops hreading r next after hp hno
  · intro least lhs start hleast hstart
    have hfollows : Follows ops links start after :=
      follows_of_links hops hjoins
        (fun link hlink => phraseSettles_of_reading hops (hlinks link hlink)) hstart hp.current
        fun link hlink hname => hp.apart (EndsInName.of_link hlink hname).append
    obtain ⟨middle, htight, _, hsettles⟩ := climbs_climb hfollows hp.current hno hleast lhs
    exact ⟨middle, htight.passes, hsettles⟩

theorem reading_ofName (ops : OperatorTable) (name : String) :
    Reading ops (.operand (.var name none)) [.ofName name] := by
  have hkind : (Token.ofName name).kind = .identifier name := rfl
  exact Reading.name hkind

/-- The links of the chain `a + b * c - d`. -/
def risingAndFalling : List Link :=
  [⟨.ofSymbol "+", .var "b" none, [.ofName "b"]⟩, ⟨.ofSymbol "*", .var "c" none, [.ofName "c"]⟩,
    ⟨.ofSymbol "-", .var "d" none, [.ofName "d"]⟩]

theorem chain_is_grouped_by_precedence_rising_and_falling :
    ∃ r after : Reader,
      r.PassesTo ([.ofName "a"] ++ risingAndFalling.flatMap Link.written) (.ofSymbol ";") after ∧
      Settles (expression .standard) r
        (.binary "-" (.binary "+" (.var "a" none)
          (.binary "*" (.var "b" none) (.var "c" none) none) none) (.var "d" none) none) after := by
  have hpasses : (Reader.ofTokens (.ofName "a") [.ofSymbol "+", .ofName "b", .ofSymbol "*",
      .ofName "c", .ofSymbol "-", .ofName "d", .ofSymbol ";"]).Passes
      ([.ofName "a"] ++ risingAndFalling.flatMap Link.written)
      (Reader.ofTokens (.ofSymbol ";") []) :=
    .cons rfl rfl (.cons rfl rfl (.cons rfl rfl (.cons rfl rfl (.cons rfl rfl
      (.cons rfl rfl (.cons rfl rfl (.nil _)))))))
  have hsymbol : (Token.ofSymbol ";").isSymbol ";" = true := rfl
  have hp := hpasses.to_symbol rfl hsymbol (by decide)
  have hjoins : ∀ link ∈ risingAndFalling, OperatorTable.standard.Joins link.op := by
    intro link hlink
    refine OperatorTable.joins_of_precedence ?_
    revert link
    decide
  have hlinks : ∀ link ∈ risingAndFalling,
      Reading .standard (.operand link.operand) link.tokens := by
    intro link hlink
    simp only [risingAndFalling, List.mem_cons, List.not_mem_nil, or_false] at hlink
    rcases hlink with rfl | rfl | rfl
    all_goals exact reading_ofName _ _
  have hgroup : group .standard (.var "a" none) risingAndFalling =
      .binary "-" (.binary "+" (.var "a" none)
        (.binary "*" (.var "b" none) (.var "c" none) none) none) (.var "d" none) none := by cbv
  refine ⟨_, _, hp, ?_⟩
  rw [← hgroup]
  exact (chain_is_grouped_by_precedence .standard (reading_ofName _ _) hjoins hlinks hp
    (OperatorTable.Reachable.standard.not_joins_of_isSymbol (by decide) hsymbol)).1

/-- It matters that a name at the end of a chain is not followed by a parenthesis: in `x (y)` that
makes a call. -/
theorem name_before_parenthesis_is_called :
    ¬ ∀ (ops : OperatorTable) (first : Expr) (ts : List Token) (links : List Link) (next : Token)
      (r after : Reader), ops.Reachable → Reading ops (.operand first) ts →
      (∀ link ∈ links, ops.Joins link.op) →
      (∀ link ∈ links, Reading ops (.operand link.operand) link.tokens) →
      r.Passes (ts ++ links.flatMap Link.written) after → after.current = some next →
      ¬ ops.Joins next → Settles (expression ops) r (group ops first links) after := by
  intro h
  have hleft : (Token.ofSymbol "(").isSymbol "(" = true := rfl
  have hright : (Token.ofSymbol ")").isSymbol ")" = true := rfl
  have hkind : (Token.ofName "x").kind = .identifier "x" := rfl
  have hname := h .standard (.var "x" none) [.ofName "x"] [] (.ofSymbol "(")
    (Reader.ofTokens (.ofName "x") [.ofSymbol "(", .ofName "y", .ofSymbol ")", .ofSymbol ";"])
    (Reader.ofTokens (.ofSymbol "(") [.ofName "y", .ofSymbol ")", .ofSymbol ";"]) .standard
    (reading_ofName _ _) (by simp) (by simp) (.cons rfl rfl (.nil _)) rfl
    (OperatorTable.Reachable.standard.not_joins_of_isSymbol (by decide) hleft)
  have hcall : Reading .standard (.expression (.call "x" [.var "y" none] none))
      [.ofName "x", .ofSymbol "(", .ofName "y", .ofSymbol ")"] :=
    (Reading.call hkind hleft (.lastArgument (reading_ofName _ "y").alone) hright).alone
  have hpasses : (Reader.ofTokens (.ofName "x") [.ofSymbol "(", .ofName "y", .ofSymbol ")",
      .ofSymbol ";"]).Passes [.ofName "x", .ofSymbol "(", .ofName "y", .ofSymbol ")"]
      (Reader.ofTokens (.ofSymbol ";") []) :=
    .cons rfl rfl (.cons rfl rfl (.cons rfl rfl (.cons rfl rfl (.nil _))))
  have hsymbol : (Token.ofSymbol ";").isSymbol ";" = true := rfl
  have hsettles := phraseSettles_of_reading .standard hcall _ _ _
    (hpasses.to_symbol rfl hsymbol (by decide))
    (OperatorTable.Reachable.standard.not_joins_of_isSymbol (by decide) hsymbol)
  rw [group_nil] at hname
  have heq := (hname.unique hsettles).1
  cases heq

end ScalarLang.Parse
