import ScalarLang.Proofs.Parse.Reading

/-!
# Reading gives the tree

Wherever what follows cannot be taken for more of a phrase, the tokens of the phrase are read as its
tree. For expressions this says what precedence climbing means.
-/
namespace ScalarLang

/-! ### Productions -/

namespace Parse

variable {ops : OperatorTable} {r middle after : Reader} {t left right next : Token} {e : Expr}

theorem settles_primary (hc : r.current = some t)
    (h : Settles (fun depth => primary ops (depth + 1)) r e after) :
    Settles (primary ops) r e after := by
  refine Settles.deeper ⟨t, r, ?_⟩ h
  rw [primary]
  exact fail_of_some _ hc

theorem settles_expression {first : Expr} (hc : r.current = some t)
    (hfirst : Settles (primary ops) r first middle)
    (hclimb : Settles (fun depth => climb ops depth 0 first) middle e after) :
    Settles (expression ops) r e after := by
  refine Settles.deeper ⟨t, r, ?_⟩ ?_
  · rw [expression]
    exact fail_of_some _ hc
  · exact hfirst.bind hclimb

theorem number_eq {value : Float} (h : t.kind = .number value) (hp : r.Passes [t] after) :
    number r = .ok (.number value t.location) after := by
  obtain ⟨next, hfetch, _⟩ := hp.fetch_single
  have hget : (get : Parse Reader) r = .ok r r := rfl
  have hknown : known .meaning r.current r = .ok t r := by
    rw [hp.current_eq]
    rfl
  rw [number, step_bind_ok hget, step_bind_ok hknown, step_bind_ok hfetch, h]
  rfl

section Arguments

variable {inner : Nat → Parse Expr} {args done : List Expr} {fuel : Nat}

theorem parenthesized_settles {start : Reader} (hleft : r.Passes [left] start)
    (h : Settles inner start e middle) (hright : middle.Passes [right] after)
    (hsymbol : right.isSymbol ")" = true) :
    Settles (fun depth => parenthesized (inner depth)) r e after := by
  obtain ⟨_, hstart, _⟩ := hleft.fetch_single
  obtain ⟨_, hend, _⟩ := hright.fetch_single
  refine Settles.after_ok hstart ?_
  refine h.bind ?_
  refine Settles.after_ok (require_of_isSymbol _ hright.current_eq hsymbol) ?_
  refine Settles.after_ok hend ?_
  exact Settles.of_ok fun _ => rfl

theorem arguments_last (h : Settles inner r e after) (hc : after.current = some right)
    (hright : right.isSymbol ")" = true) :
    Settles (fun depth => arguments (inner depth) (fuel + 1) done) r (done ++ [e]) after := by
  refine h.bind ?_
  refine Settles.after_ok (current_of_some hc) ?_
  simp only [hright, if_true]
  exact Settles.of_ok fun _ => rfl

theorem arguments_more {comma : Token} {later : Reader} (h : Settles inner r e middle)
    (hp : middle.Passes [comma] later) (hcomma : comma.isSymbol "," = true)
    (hrest : Settles (fun depth => arguments (inner depth) fuel (done ++ [e])) later args after) :
    Settles (fun depth => arguments (inner depth) (fuel + 1) done) r args after := by
  obtain ⟨_, hfetch, _⟩ := hp.fetch_single
  have hopen : comma.isSymbol ")" = false := Token.isSymbol_of_ne hcomma (by decide)
  refine h.bind ?_
  refine Settles.after_ok (current_of_some hp.current_eq) ?_
  simp only [hopen, Bool.false_eq_true, if_false]
  refine Settles.after_ok (require_of_isSymbol _ hp.current_eq hcomma) ?_
  refine Settles.after_ok hfetch ?_
  exact hrest

theorem argumentList_none (hp : r.Passes [left] after) (hc : after.current = some right)
    (hright : right.isSymbol ")" = true) :
    Settles (fun depth => argumentList (inner depth)) r [] after := by
  obtain ⟨next, hfetch, hnext⟩ := hp.fetch_single
  cases hc.symm.trans hnext
  refine Settles.after_ok hfetch ?_
  simp only [hright, if_true]
  exact Settles.of_ok fun _ => rfl

theorem argumentList_some (hp : r.Passes [left] middle) (hc : middle.current = some next)
    (hnext : next.isSymbol ")" = false)
    (h : Settles (fun depth => arguments (inner depth) (middle.ahead.length + 1) []) middle args
      after) :
    Settles (fun depth => argumentList (inner depth)) r args after := by
  obtain ⟨first, hfetch, hfirst⟩ := hp.fetch_single
  cases hc.symm.trans hfirst
  refine Settles.after_ok hfetch ?_
  simp only [hnext, Bool.false_eq_true, if_false]
  exact Settles.after_ok (rounds_eq middle) h

theorem application_none (hp : r.Passes [t] after) (hc : after.current = some next)
    (hnext : next.isSymbol "(" = false) :
    Settles (fun depth => application (inner depth)) r none after := by
  obtain ⟨first, hfetch, hfirst⟩ := hp.fetch_single
  cases hc.symm.trans hfirst
  refine Settles.after_ok hfetch ?_
  simp only [hnext, Bool.false_eq_true, if_false]
  exact Settles.of_ok fun _ => rfl

theorem application_some {later : Reader} (hp : r.Passes [t] middle)
    (hc : middle.current = some left) (hleft : left.isSymbol "(" = true)
    (h : Settles (fun depth => argumentList (inner depth)) middle args later)
    (hright : later.Passes [right] after) :
    Settles (fun depth => application (inner depth)) r (some args) after := by
  obtain ⟨first, hfetch, hfirst⟩ := hp.fetch_single
  obtain ⟨_, hend, _⟩ := hright.fetch_single
  cases hc.symm.trans hfirst
  refine Settles.after_ok hfetch ?_
  simp only [hleft, if_true]
  refine h.bind ?_
  refine Settles.after_ok hend ?_
  exact Settles.of_ok fun _ => rfl

end Arguments

section Operands

theorem primary_number {value : Float} (h : t.kind = .number value) (hp : r.Passes [t] after) :
    Settles (primary ops) r (.number value t.location) after := by
  refine settles_primary hp.current_eq ?_
  refine Settles.after_ok (current_of_some hp.current_eq) ?_
  simp only [h]
  exact Settles.of_ok fun _ => number_eq h hp

theorem primary_reference {name : String} {args : Option (List Expr)}
    (h : t.kind = .identifier name) (hc : r.current = some t)
    (hargs : Settles (fun depth => application (expression ops depth)) r args after) :
    Settles (primary ops) r (.reference name t.location args) after := by
  refine settles_primary hc ?_
  refine Settles.after_ok (current_of_some hc) ?_
  simp only [h]
  refine hargs.bind ?_
  exact Settles.of_ok fun _ => rfl

theorem primary_parenthesized (hleft : left.isSymbol "(" = true) (hc : r.current = some left)
    (h : Settles (fun depth => parenthesized (expression ops depth)) r e after) :
    Settles (primary ops) r e after := by
  refine settles_primary hc ?_
  refine Settles.after_ok (current_of_some hc) ?_
  simp only [Token.kind_of_isSymbol hleft, hleft, if_true]
  exact h

end Operands

/-! ### Whole phrases -/

section Phrases

theorem isSymbol_of_joins (hops : ops.Reachable) (h : ops.Joins t) : t.isSymbol "(" = false := by
  cases hsymbol : t.isSymbol "(" with
  | false => rfl
  | true => exact absurd h (hops.not_joins_of_isSymbol (by decide) hsymbol)

theorem current_of_links (hops : ops.Reachable) {links : List Link} {ts : List Token}
    (hjoins : ∀ link ∈ links, ops.Joins link.op)
    (hp : r.Passes (links.flatMap Link.written) after) (hc : after.current = some next)
    (hapart : links = [] → EndsInName ts → next.isSymbol "(" = false) :
    ∃ t, r.current = some t ∧ (EndsInName ts → t.isSymbol "(" = false) := by
  cases links with
  | nil =>
    cases hp
    exact ⟨next, hc, hapart rfl⟩
  | cons link rest =>
    refine ⟨link.op, hp.current_eq, fun _ => ?_⟩
    exact isSymbol_of_joins hops (hjoins link (List.mem_cons_self ..))

/-- What reading the tokens of a phrase comes to. -/
def PhraseSettles (ops : OperatorTable) (ts : List Token) : Phrase → Prop
  | .operand e => ∀ r next after, r.PassesTo ts next after → Settles (primary ops) r e after
  | .expression e => ∀ r next after, r.PassesTo ts next after → ¬ ops.Joins next →
      Settles (expression ops) r e after
  | .arguments es => es ≠ [] → ∀ r next after fuel done, r.Passes ts after →
      after.current = some next → next.isSymbol ")" = true → ts.length < fuel →
      Settles (fun depth => arguments (expression ops depth) fuel done) r (done ++ es) after

theorem follows_of_links (hops : ops.Reachable) {links : List Link}
    (hjoins : ∀ link ∈ links, ops.Joins link.op)
    (hlinks : ∀ link ∈ links, PhraseSettles ops link.tokens (.operand link.operand))
    (hp : r.Passes (links.flatMap Link.written) after) (hc : after.current = some next)
    (hapart : ∀ link ∈ links.getLast?, EndsInName link.tokens → next.isSymbol "(" = false) :
    Follows ops links r after := by
  induction links generalizing r with
  | nil =>
    cases hp
    exact .nil _
  | cons link rest ih =>
    have hrest : ∀ l ∈ rest, ops.Joins l.op := fun l hl => hjoins l (List.mem_cons_of_mem _ hl)
    have hwritten : r.Passes ([link.op] ++ (link.tokens ++ rest.flatMap Link.written)) after := hp
    obtain ⟨start, hop, hwritten⟩ := hwritten.split
    obtain ⟨middle, htokens, hwritten⟩ := hwritten.split
    obtain ⟨t, ht, htapart⟩ := current_of_links hops hrest hwritten hc (by
      rintro rfl
      exact hapart link rfl)
    have hoperand := hlinks link (List.mem_cons_self ..) start t middle ⟨htokens, ht, htapart⟩
    have hfollows := ih hrest (fun l hl => hlinks l (List.mem_cons_of_mem _ hl)) hwritten (by
      intro l hl
      refine hapart l ?_
      rw [List.getLast?_cons, hl]
      rfl)
    exact .cons (hjoins link (List.mem_cons_self ..)) hop htokens hoperand hfollows

theorem climb_of_follows {links : List Link} (hf : Follows ops links r after)
    (hc : after.current = some next) (hno : ¬ ops.Joins next) (first : Expr) :
    Settles (fun depth => climb ops depth 0 first) r (group ops first links) after := by
  have hall : ∀ link ∈ links, Link.reaches ops 0 link = true := by
    intro link hlink
    exact decide_eq_true (hf.joins link hlink).precedence_nonneg
  obtain ⟨middle, _, hrest, hsettles⟩ := climbs_climb hf hc hno (le_refl 0) first
  rw [List.takeWhile_eq_self_iff.2 hall] at hsettles
  rw [List.dropWhile_eq_nil_iff.2 hall] at hrest
  cases hrest
  exact hsettles

theorem phraseSettles_of_reading (hops : ops.Reachable) {phrase : Phrase} {ts : List Token}
    (h : Reading ops phrase ts) : PhraseSettles ops ts phrase := by
  induction h with
  | number h =>
    intro r next after hp
    exact primary_number h hp.passes
  | name h =>
    intro r next after hp
    have hnone : Settles (fun depth => application (expression ops depth)) r none after :=
      application_none hp.passes hp.current (hp.apart ⟨_, rfl, _, h⟩)
    exact primary_reference h hp.passes.current_eq hnone
  | @call t left right name args ts h hleft hargs hright ih =>
    intro r next after hp
    have hpasses : r.Passes ([t] ++ ([left] ++ (ts ++ [right]))) after := hp.passes
    obtain ⟨second, ht, hpasses⟩ := hpasses.split
    obtain ⟨third, hopen, hpasses⟩ := hpasses.split
    obtain ⟨fourth, hts, hclose⟩ := hpasses.split
    have hlist : Settles (fun depth => argumentList (expression ops depth)) second args fourth := by
      cases args with
      | nil =>
        cases hargs
        cases hts
        exact argumentList_none hopen hclose.current_eq hright
      | cons e es =>
        obtain ⟨t', rest, rfl, ht'⟩ := hargs.starts (by simp)
        refine argumentList_some hopen hts.current_eq (ht'.isSymbol_eq_false (by decide)) ?_
        have hlength := hts.length_ahead
        exact ih (by simp) third right fourth _ [] hts hclose.current_eq hright (by omega)
    have hsome := application_some ht hopen.current_eq hleft hlist hclose
    exact primary_reference h ht.current_eq hsome
  | @parenthesized left right e ts hleft _ hright ih =>
    intro r next after hp
    have hpasses : r.Passes ([left] ++ (ts ++ [right])) after := hp.passes
    obtain ⟨first, hopen, hpasses⟩ := hpasses.split
    obtain ⟨second, hts, hclose⟩ := hpasses.split
    refine primary_parenthesized hleft hopen.current_eq ?_
    refine parenthesized_settles hopen ?_ hclose hright
    exact ih first right second (hts.to_symbol hclose.current_eq hright (by decide))
      (hops.not_joins_of_isSymbol (by decide) hright)
  | @chain first ts links hfirst hjoins hlinks ihfirst ihlinks =>
    intro r next after hp hno
    -- The operands are read one after the other, and climbing joins them.
    obtain ⟨middle, hts, hus⟩ := hp.passes.split
    obtain ⟨t, ht, htapart⟩ := current_of_links hops hjoins hus hp.current (by
      rintro rfl
      simpa using hp.apart)
    have hoperand := ihfirst r t middle ⟨hts, ht, htapart⟩
    have hfollows := follows_of_links hops hjoins ihlinks hus hp.current
      fun link hlink hname => hp.apart (EndsInName.of_link hlink hname).append
    obtain ⟨t', rest, rfl, _⟩ := hfirst.starts (by simp)
    exact settles_expression hts.current_eq hoperand
      (climb_of_follows hfollows hp.current hno first)
  | noArguments =>
    intro hne
    exact absurd rfl hne
  | @lastArgument e ts _ ih =>
    intro _ r next after fuel done hp hc hright hfuel
    obtain ⟨fuel, rfl⟩ : ∃ k, fuel = k + 1 := ⟨fuel - 1, by omega⟩
    have he := ih r next after (hp.to_symbol hc hright (by decide))
      (hops.not_joins_of_isSymbol (by decide) hright)
    exact arguments_last he hc hright
  | @argument e second rest comma ts us _ hcomma _ ih ihrest =>
    intro _ r next after fuel done hp hc hright hfuel
    obtain ⟨fuel, rfl⟩ : ∃ k, fuel = k + 1 := ⟨fuel - 1, by omega⟩
    obtain ⟨middle, hts, hp⟩ := hp.split
    have hpasses : middle.Passes ([comma] ++ us) after := hp
    obtain ⟨later, hpcomma, hus⟩ := hpasses.split
    have he := ih r comma middle (hts.to_symbol hpcomma.current_eq hcomma (by decide))
      (hops.not_joins_of_isSymbol (by decide) hcomma)
    have hlength : us.length < fuel := by
      simp only [List.length_append, List.length_cons] at hfuel
      omega
    have hothers := ihrest (by simp) later next after fuel (done ++ [e]) hus hc hright hlength
    rw [List.append_assoc] at hothers
    exact arguments_more he hpcomma hcomma hothers

end Phrases

end Parse
end ScalarLang
