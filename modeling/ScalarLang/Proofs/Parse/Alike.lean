import ScalarLang.Proofs.Operator.Installed
import ScalarLang.Proofs.Parse.Completeness
import ScalarLang.Proofs.Unplaced
import ScalarLang.Session.Event

/-!
# Productions stop at a gate

No production passes the end of the input or a semicolon, or tells one from the other: what it does
depends on the tokens in front of it alone, and it stops there with the same result or a failure
with the same message. So it does the same with two readers that have the same items in front of
them, up to places, and then the end on the one side and such a gate on the other.
-/
namespace ScalarLang

/-! ### Tokens and readers that are alike -/

/-- The end of the input or a semicolon. -/
def Token.Closes (t : Token) : Prop := t.kind = .eof ∨ t.kind = .symbol ";"

/-- Two tokens that productions do not tell apart. -/
def Token.Alike (t u : Token) : Prop := t.unplaced = u.unplaced ∨ (t.Closes ∧ u.Closes)

/-- Two readers with the same items ahead up to places, `n` fetches before the end of the one and
before a gate of the other, which has more items beyond it. -/
inductive Reader.Alike (gate : Token) (beyond : List Lexeme) (r r' : Reader) : Nat → Prop
  | inside {t u stop : Token} {items others : List Lexeme} {notes own : List Note}
      (hc : r.current = some t) (hc' : r'.current = some u) (ht : t.unplaced = u.unplaced)
      (ha : r.ahead = items ++ [⟨notes, .token stop⟩])
      (ha' : r'.ahead = others ++ ⟨own, .token gate⟩ :: beyond)
      (hitems : others.map Lexeme.bare = items.map Lexeme.bare) (hstop : stop.isEnd = true)
      (hlast : r.ending.isEnd = true) : Alike gate beyond r r' (items.length + 1)
  | reached {t : Token} (hc : r.current = some t) (hc' : r'.current = some gate) (ha : r.ahead = [])
      (ha' : r'.ahead = beyond) (ht : t.isEnd = true) (hlast : r.ending.isEnd = true) :
      Alike gate beyond r r' 0

namespace Token

variable {t u : Token}

theorem closes_of_isEnd (h : t.isEnd = true) : t.Closes := by
  unfold isEnd at h
  split at h
  · next hkind => exact Or.inl hkind
  · cases h

theorem Closes.isSymbol (h : t.Closes) {text : String} (htext : text ≠ ";") :
    t.isSymbol text = false := by
  rcases h with hkind | hkind
  · simp [Token.isSymbol, hkind]
  · simp [Token.isSymbol, hkind, Ne.symm htext]

theorem Alike.isSymbol (h : t.Alike u) {text : String} (htext : text ≠ ";") :
    u.isSymbol text = t.isSymbol text := by
  rcases h with h | ⟨ht, hu⟩
  · rw [Token.isSymbol, Token.isSymbol, kind_eq_of_unplaced h]
  · rw [ht.isSymbol htext, hu.isSymbol htext]

theorem not_closes_of_isSymbol {text : String} (h : t.isSymbol text = true) (htext : text ≠ ";") :
    ¬ t.Closes := by
  intro hclosed
  rw [hclosed.isSymbol htext] at h
  cases h

end Token

namespace Reader.Alike

variable {gate : Token} {beyond : List Lexeme} {n : Nat} {r r' : Reader}

theorem current (h : Reader.Alike gate beyond r r' n) (hgate : gate.Closes) :
    ∃ t u, r.current = some t ∧ r'.current = some u ∧ t.Alike u ∧ (n = 0 → t.Closes) := by
  cases h with
  | @inside t u _ _ _ _ _ hc hc' ht => exact ⟨t, u, hc, hc', Or.inl ht, fun h => by cases h⟩
  | @reached t hc hc' _ _ ht _ =>
    have hclosed := Token.closes_of_isEnd ht
    exact ⟨t, gate, hc, hc', Or.inr ⟨hclosed, hgate⟩, fun _ => hclosed⟩

theorem le_length (h : Reader.Alike gate beyond r r' n) :
    n ≤ r.ahead.length ∧ n ≤ r'.ahead.length := by
  cases h with
  | inside _ _ _ ha ha' hitems =>
    have hlength := congrArg List.length hitems
    simp only [List.length_map] at hlength
    simp only [ha, ha', List.length_append, List.length_cons, List.length_nil]
    omega
  | reached => exact ⟨Nat.zero_le _, Nat.zero_le _⟩

end Reader.Alike

/-! ### Results that are alike -/

namespace Parse

variable {α β : Type} {gate : Token} {beyond : List Lexeme} {n m : Nat} {r r' : Reader}

/-- Two results that are alike: values that `rel` relates, or failures with the same message. The
readers after them are alike, with no more to fetch than before; `rel` is told how much that is. -/
inductive Agree (gate : Token) (beyond : List Lexeme) (rel : Nat → α → α → Prop) (n : Nat) :
    EStateM.Result Failure Reader α → EStateM.Result Failure Reader α → Prop
  | ok {a b : α} {r r' : Reader} {m : Nat} (hab : rel m a b) (hr : Reader.Alike gate beyond r r' m)
      (hm : m ≤ n) : Agree gate beyond rel n (.ok a r) (.ok b r')
  | error {e f : Failure} {r r' : Reader} {m : Nat}
      (hef : e.diagnostic.message = f.diagnostic.message) (hr : Reader.Alike gate beyond r r' m)
      (hm : m ≤ n) : Agree gate beyond rel n (.error e r) (.error f r')

namespace Agree

variable {rel : Nat → α → α → Prop} {rel' : Nat → β → β → Prop}

theorem mono {x y : EStateM.Result Failure Reader α} (h : Agree gate beyond rel m x y)
    (hle : m ≤ n) : Agree gate beyond rel n x y := by
  cases h with
  | ok hab hr hm => exact .ok hab hr (hm.trans hle)
  | error hef hr hm => exact .error hef hr (hm.trans hle)

theorem pure {a b : α} (h : Reader.Alike gate beyond r r' n) (hab : rel n a b) :
    Agree gate beyond rel n ((Pure.pure a : Parse α) r) ((Pure.pure b : Parse α) r') :=
  .ok hab h (le_refl n)

theorem bind {x y : Parse α} {f g : α → Parse β} (hx : Agree gate beyond rel n (x r) (y r'))
    (hf : ∀ a b m s s', rel m a b → Reader.Alike gate beyond s s' m → m ≤ n →
      Agree gate beyond rel' m (f a s) (g b s')) :
    Agree gate beyond rel' n ((x >>= f) r) ((y >>= g) r') := by
  cases hxr : x r with
  | ok a s =>
    cases hyr : y r' with
    | ok b s' =>
      rw [hxr, hyr] at hx
      cases hx with
      | ok hab hr hm =>
        rw [step_bind_ok hxr, step_bind_ok hyr]
        exact (hf a b _ s s' hab hr hm).mono hm
    | error e s' =>
      rw [hxr, hyr] at hx
      cases hx
  | error e s =>
    cases hyr : y r' with
    | ok b s' =>
      rw [hxr, hyr] at hx
      cases hx
    | error f s' =>
      rw [hxr, hyr] at hx
      cases hx with
      | error hef hr hm =>
        rw [step_bind_error hxr, step_bind_error hyr]
        exact .error hef hr hm

theorem map {x y : Parse α} {g : α → β} (hx : Agree gate beyond rel n (x r) (y r'))
    (hg : ∀ m a b, rel m a b → rel' m (g a) (g b)) :
    Agree gate beyond rel' n ((g <$> x) r) ((g <$> y) r') := by
  rw [← bind_pure_comp, ← bind_pure_comp]
  exact hx.bind fun a b m s s' hab hr _ => .pure hr (hg m a b hab)

end Agree

/-! ### Single steps -/

section Steps

variable {rel : Nat → α → α → Prop}

theorem current_agree {f g : Token → Parse α} (hgate : gate.Closes)
    (h : Reader.Alike gate beyond r r' n)
    (hf : ∀ t u, t.Alike u → (n = 0 → t.Closes) → Agree gate beyond rel n (f t r) (g u r')) :
    Agree gate beyond rel n ((current >>= f) r) ((current >>= g) r') := by
  obtain ⟨t, u, ht, hu, halike, hclosed⟩ := h.current hgate
  rw [step_bind_ok (current_of_some ht), step_bind_ok (current_of_some hu)]
  exact hf t u halike hclosed

theorem rounds_agree {f g : Nat → Parse α} (h : Reader.Alike gate beyond r r' n)
    (hf : ∀ k k', n < k → n < k' → Agree gate beyond rel n (f k r) (g k' r')) :
    Agree gate beyond rel n ((rounds >>= f) r) ((rounds >>= g) r') := by
  obtain ⟨hle, hle'⟩ := h.le_length
  rw [step_bind_ok (rounds_eq r), step_bind_ok (rounds_eq r')]
  exact hf _ _ (by omega) (by omega)

theorem message_diagnostic (expected : Expectation) (t u : Token) :
    (expected.diagnostic t).message = (expected.diagnostic u).message := by
  cases expected <;> rfl

theorem fail_agree (expected : Expectation) (hgate : gate.Closes)
    (h : Reader.Alike gate beyond r r' n) :
    Agree gate beyond rel n (fail expected r) (fail expected r') := by
  obtain ⟨t, u, ht, hu, _, _⟩ := h.current hgate
  rw [fail_of_some expected ht, fail_of_some expected hu]
  exact .error (message_diagnostic expected t u) h (le_refl n)

/-- A symbol that is required stands in front of the gate. -/
theorem require_agree {text : String} {expected : Expectation} {f g : Unit → Parse α}
    (hgate : gate.Closes) (htext : text ≠ ";") (h : Reader.Alike gate beyond r r' n)
    (hf : n ≠ 0 → Agree gate beyond rel n (f () r) (g () r')) :
    Agree gate beyond rel n ((require text expected >>= f) r)
      ((require text expected >>= g) r') := by
  obtain ⟨t, u, ht, hu, halike, hclosed⟩ := h.current hgate
  have hsame := halike.isSymbol htext
  cases hsymbol : t.isSymbol text with
  | true =>
    rw [hsymbol] at hsame
    rw [step_bind_ok (require_of_isSymbol expected ht hsymbol),
      step_bind_ok (require_of_isSymbol expected hu hsame)]
    exact hf fun hn => Token.not_closes_of_isSymbol hsymbol htext (hclosed hn)
  | false =>
    rw [hsymbol] at hsame
    have hfails : ∀ {s : Reader} {v : Token}, s.current = some v → v.isSymbol text = false →
        require text expected s = .error (.unexpected expected v) s := by
      intro s v hv hno
      rw [require, step_bind_ok (current_of_some hv), hno]
      exact fail_of_some expected hv
    rw [step_bind_error (hfails ht hsymbol), step_bind_error (hfails hu hsame)]
    exact .error (message_diagnostic expected t u) h (le_refl n)

/-- Fetching in front of the gate. A token that does not close lies in front of it too. -/
theorem fetch_agree (hgate : gate.Closes) (h : Reader.Alike gate beyond r r' (n + 1)) :
    Agree gate beyond (fun m t u => t.Alike u ∧ (m = 0 → t.Closes)) n (fetch r) (fetch r') := by
  cases h with
  | @inside t u stop items others notes own hc hc' ht ha ha' hitems hstop hlast =>
    cases items with
    | nil =>
      obtain rfl := List.map_eq_nil_iff.1 hitems
      have hclosed := Token.closes_of_isEnd hstop
      rw [fetch_token ha, fetch_token ha']
      exact .ok ⟨Or.inr ⟨hclosed, hgate⟩, fun _ => hclosed⟩ (.reached rfl rfl rfl rfl hstop hlast)
        (le_refl _)
    | cons l items =>
      cases others with
      | nil => cases hitems
      | cons l' others =>
        simp only [List.map_cons, List.cons.injEq] at hitems
        obtain ⟨hbare, hitems⟩ := hitems
        obtain ⟨notes', item⟩ := l
        obtain ⟨own', item'⟩ := l'
        rcases Item.cases_of_unplaced hbare with ⟨v, w, rfl, rfl, hvw⟩ |
          ⟨fault, fault', rfl, rfl, hliteral⟩
        · rw [fetch_token ha, fetch_token ha']
          exact .ok ⟨Or.inl hvw, fun h => by cases h⟩
            (.inside rfl rfl hvw rfl rfl hitems hstop hlast) (le_refl _)
        · rw [fetch_malformed ha, fetch_malformed ha']
          exact .error (Malformed.message_eq hliteral.symm)
            (.inside hc hc' ht rfl rfl hitems hstop hlast) (le_refl _)

end Steps

/-! ### Expressions -/

/-- A step that does the same with all readers that are alike. -/
def Agrees (gate : Token) (beyond : List Lexeme) (rel : Nat → α → α → Prop) (x : Parse α) : Prop :=
  ∀ n r r', Reader.Alike gate beyond r r' n → Agree gate beyond rel n (x r) (x r')

def sameExpr (_ : Nat) (e f : Expr) : Prop := e.unplaced = f.unplaced

/-- Rows of expressions that are the same up to places, in front of the gate. -/
def sameArgs (m : Nat) (es fs : List Expr) : Prop :=
  m ≠ 0 ∧ es.map Expr.unplaced = fs.map Expr.unplaced

def sameArgs? (_ : Nat) (es fs : Option (List Expr)) : Prop :=
  es.map (List.map Expr.unplaced) = fs.map (List.map Expr.unplaced)

section Productions

variable {ops : OperatorTable} {inner : Parse Expr}

theorem parenthesized_agree (hgate : gate.Closes) (hinner : Agrees gate beyond sameExpr inner)
    (h : Reader.Alike gate beyond r r' n) (hn : n ≠ 0) :
    Agree gate beyond sameExpr n (parenthesized inner r) (parenthesized inner r') := by
  obtain ⟨n, rfl⟩ := Nat.exists_eq_succ_of_ne_zero hn
  refine ((fetch_agree hgate h).mono (Nat.le_succ n)).bind fun _ _ m s s' _ hs _ => ?_
  refine (hinner m s s' hs).bind fun e f m s s' hef hs _ => ?_
  refine require_agree hgate (by decide) hs fun hm => ?_
  obtain ⟨m, rfl⟩ := Nat.exists_eq_succ_of_ne_zero hm
  refine ((fetch_agree hgate hs).mono (Nat.le_succ m)).bind fun _ _ m s s' _ hs _ => ?_
  exact .pure hs hef

theorem arguments_agree (hgate : gate.Closes) (hinner : Agrees gate beyond sameExpr inner)
    {fuel fuel' : Nat} {done done' : List Expr} (h : Reader.Alike gate beyond r r' n)
    (hfuel : n < fuel) (hfuel' : n < fuel')
    (hdone : done.map Expr.unplaced = done'.map Expr.unplaced) :
    Agree gate beyond sameArgs n (arguments inner fuel done r)
      (arguments inner fuel' done' r') := by
  induction fuel generalizing fuel' n r r' done done' with
  | zero => exact absurd hfuel (Nat.not_lt_zero _)
  | succ fuel ih =>
    obtain ⟨fuel', rfl⟩ : ∃ k, fuel' = k + 1 := ⟨fuel' - 1, by omega⟩
    refine (hinner n r r' h).bind fun arg arg' m s s' harg hs hm => ?_
    refine current_agree hgate hs fun t u htu hclosed => ?_
    have hmore : (done ++ [arg]).map Expr.unplaced = (done' ++ [arg']).map Expr.unplaced := by
      have hlast : arg.unplaced = arg'.unplaced := harg
      simp only [List.map_append, hdone, List.map_cons, hlast, List.map_nil]
    rw [htu.isSymbol (by decide)]
    cases hright : t.isSymbol ")" with
    | true =>
      have hopen := Token.not_closes_of_isSymbol hright (by decide)
      exact .pure hs ⟨fun h => hopen (hclosed h), hmore⟩
    | false =>
      refine require_agree hgate (by decide) hs fun hm => ?_
      obtain ⟨m, rfl⟩ := Nat.exists_eq_succ_of_ne_zero hm
      refine ((fetch_agree hgate hs).bind fun _ _ k s s' _ hs hk => ?_).mono (Nat.le_succ m)
      exact ih hs (by omega) (by omega) hmore

theorem argumentList_agree (hgate : gate.Closes) (hinner : Agrees gate beyond sameExpr inner)
    (h : Reader.Alike gate beyond r r' n) (hn : n ≠ 0) :
    Agree gate beyond sameArgs n (argumentList inner r) (argumentList inner r') := by
  obtain ⟨n, rfl⟩ := Nat.exists_eq_succ_of_ne_zero hn
  refine ((fetch_agree hgate h).mono (Nat.le_succ n)).bind fun t u m s s' htu hs _ => ?_
  rw [htu.1.isSymbol (by decide)]
  cases hright : t.isSymbol ")" with
  | true =>
    have hopen := Token.not_closes_of_isSymbol hright (by decide)
    exact .pure hs ⟨fun h => hopen (htu.2 h), rfl⟩
  | false =>
    exact rounds_agree hs fun k k' hk hk' => arguments_agree hgate hinner hs hk hk' rfl

theorem application_agree (hgate : gate.Closes) (hinner : Agrees gate beyond sameExpr inner)
    (h : Reader.Alike gate beyond r r' n) (hn : n ≠ 0) :
    Agree gate beyond sameArgs? n (application inner r) (application inner r') := by
  obtain ⟨n, rfl⟩ := Nat.exists_eq_succ_of_ne_zero hn
  refine ((fetch_agree hgate h).mono (Nat.le_succ n)).bind fun t u m s s' htu hs _ => ?_
  rw [htu.1.isSymbol (by decide)]
  cases hleft : t.isSymbol "(" with
  | false => exact .pure hs rfl
  | true =>
    have hopen := Token.not_closes_of_isSymbol hleft (by decide)
    refine (argumentList_agree hgate hinner hs fun h => hopen (htu.2 h)).bind
      fun args args' m s s' hargs hs _ => ?_
    obtain ⟨hm, hsame⟩ := hargs
    obtain ⟨m, rfl⟩ := Nat.exists_eq_succ_of_ne_zero hm
    refine ((fetch_agree hgate hs).mono (Nat.le_succ m)).bind fun _ _ m s s' _ hs _ => ?_
    exact .pure hs (congrArg some hsame)

/-- Neither the end nor a semicolon is an operator of the table. -/
def Closed (ops : OperatorTable) : Prop := ∀ t : Token, t.Closes → ops.precedence t = -1

theorem precedence_alike (hops : Closed ops) {t u : Token} (h : t.Alike u) :
    ops.precedence u = ops.precedence t := by
  rcases h with h | ⟨ht, hu⟩
  · rw [OperatorTable.precedence, OperatorTable.precedence, Token.kind_eq_of_unplaced h]
  · rw [hops t ht, hops u hu]

theorem word_of_unplaced {t u : Token} (h : t.unplaced = u.unplaced) : t.word = u.word := by
  have hword := congrArg Token.word h
  exact hword

theorem rightSide_agree (hgate : gate.Closes) (hops : Closed ops)
    {climb : Int → Expr → Parse Expr}
    (hclimb : ∀ least lhs lhs' n r r', 0 ≤ least → sameExpr n lhs lhs' →
      Reader.Alike gate beyond r r' n →
      Agree gate beyond sameExpr n (climb least lhs r) (climb least lhs' r'))
    {precedence : Int} (hle : 0 ≤ precedence) {operand operand' : Expr}
    (hoperand : sameExpr n operand operand') (h : Reader.Alike gate beyond r r' n) :
    Agree gate beyond sameExpr n (rightSide ops climb precedence operand r)
      (rightSide ops climb precedence operand' r') := by
  refine current_agree hgate h fun t u htu _ => ?_
  rw [precedence_alike hops htu]
  split
  · exact hclimb _ _ _ n r r' (by omega) hoperand h
  · exact .pure h hoperand

theorem chain_agree (hgate : gate.Closes) (hops : Closed ops) {primary : Parse Expr}
    {climb : Int → Expr → Parse Expr} (hprimary : Agrees gate beyond sameExpr primary)
    (hclimb : ∀ least lhs lhs' n r r', 0 ≤ least → sameExpr n lhs lhs' →
      Reader.Alike gate beyond r r' n →
      Agree gate beyond sameExpr n (climb least lhs r) (climb least lhs' r'))
    {least : Int} (hleast : 0 ≤ least) {fuel fuel' : Nat} {lhs lhs' : Expr}
    (h : Reader.Alike gate beyond r r' n) (hfuel : n < fuel) (hfuel' : n < fuel')
    (hlhs : sameExpr n lhs lhs') :
    Agree gate beyond sameExpr n (chain ops primary climb least fuel lhs r)
      (chain ops primary climb least fuel' lhs' r') := by
  induction fuel generalizing fuel' n r r' lhs lhs' with
  | zero => exact absurd hfuel (Nat.not_lt_zero _)
  | succ fuel ih =>
    obtain ⟨fuel', rfl⟩ : ∃ k, fuel' = k + 1 := ⟨fuel' - 1, by omega⟩
    refine current_agree hgate h fun t u htu hclosed => ?_
    rw [precedence_alike hops htu]
    split
    · exact .pure h hlhs
    · next hreached =>
      -- An operator is no gate, so there is a token to fetch.
      have hopen : ¬ t.Closes := by
        intro hcloses
        have hnone := hops t hcloses
        omega
      have htu : t.unplaced = u.unplaced := htu.resolve_right fun hboth => hopen hboth.1
      obtain ⟨n, rfl⟩ := Nat.exists_eq_succ_of_ne_zero fun hn => hopen (hclosed hn)
      refine ((fetch_agree hgate h).bind fun _ _ m s s' _ hs hm => ?_).mono (Nat.le_succ n)
      refine (hprimary m s s' hs).bind fun e f m' s s' hef hs hm' => ?_
      refine (rightSide_agree hgate hops hclimb (by omega) hef hs).bind
        fun e f m'' s s' hef hs hm'' => ?_
      refine ih hs (by omega) (by omega) ?_
      have hword := word_of_unplaced htu
      have hl : lhs.unplaced = lhs'.unplaced := hlhs
      have hr : e.unplaced = f.unplaced := hef
      simp only [sameExpr, Expr.unplaced, hword, hl, hr]

theorem reference_unplaced {name : String} {location other : Option Location}
    {args args' : Option (List Expr)} (h : sameArgs? n args args') :
    (Expr.reference name location args).unplaced =
      (Expr.reference name other args').unplaced := by
  cases args with
  | none =>
    cases args' with
    | none => rfl
    | some fs => cases h
  | some es =>
    cases args' with
    | none => cases h
    | some fs =>
      have hsame : es.map Expr.unplaced = fs.map Expr.unplaced := Option.some.inj h
      simp only [Expr.reference, Expr.unplaced, Expr.unplacedAll_eq_map, hsame]

/-- An operand that starts with the token. -/
def primaryAt (ops : OperatorTable) (depth : Nat) (t : Token) : Parse Expr :=
  match t.kind with
  | .identifier name => do
    let args ← application (expression ops depth)
    Pure.pure (.reference name t.location args)
  | .number _ => number
  | _ => if t.isSymbol "(" then parenthesized (expression ops depth) else fail .operand

theorem primary_of_current {t : Token} {depth : Nat} (hc : r.current = some t) :
    primary ops (depth + 1) r = primaryAt ops depth t r := by
  rw [primary, step_bind_ok (current_of_some hc)]
  unfold primaryAt
  cases t.kind <;> rfl

theorem primaryAt_of_closes {t : Token} {depth : Nat} (h : t.Closes) :
    primaryAt ops depth t = fail .operand := by
  have hno := h.isSymbol (show "(" ≠ ";" by decide)
  rcases h with hkind | hkind
  · simp [primaryAt, hkind, hno]
  · simp [primaryAt, hkind, hno]

theorem primary_agrees (hgate : gate.Closes) {depth : Nat}
    (hexpression : Agrees gate beyond sameExpr (expression ops depth)) :
    Agrees gate beyond sameExpr (primary ops (depth + 1)) := by
  intro n r r' h
  obtain ⟨t, u, ht, hu, htu, hclosed⟩ := h.current hgate
  have hinside : ¬ t.Closes → n ≠ 0 := fun hopen hn => hopen (hclosed hn)
  have hsymbol : u.isSymbol "(" = t.isSymbol "(" := htu.isSymbol (by decide)
  rw [primary_of_current ht, primary_of_current hu]
  rcases htu with htu | ⟨htc, huc⟩
  · have hkinds := Token.kind_eq_of_unplaced htu
    simp only [primaryAt, ← hkinds, hsymbol]
    cases hkind : t.kind with
    | identifier name =>
      have hopen : ¬ t.Closes := by simp [Token.Closes, hkind]
      refine (application_agree hgate hexpression h (hinside hopen)).bind
        fun args args' m s s' hargs hs _ => ?_
      exact .pure hs (reference_unplaced hargs)
    | number value =>
      have hopen : ¬ t.Closes := by simp [Token.Closes, hkind]
      obtain ⟨n, rfl⟩ := Nat.exists_eq_succ_of_ne_zero (hinside hopen)
      dsimp only
      rw [number_of_current ht hkind, number_of_current hu (hkinds.symm.trans hkind)]
      refine ((fetch_agree hgate h).mono (Nat.le_succ n)).bind fun _ _ m s s' _ hs _ => ?_
      exact .pure hs rfl
    | _ =>
      dsimp only
      cases hleft : t.isSymbol "(" with
      | true =>
        have hopen := Token.not_closes_of_isSymbol hleft (by decide)
        exact parenthesized_agree hgate hexpression h (hinside hopen)
      | false => exact fail_agree _ hgate h
  · rw [primaryAt_of_closes htc, primaryAt_of_closes huc]
    exact fail_agree _ hgate h

theorem productions_agree (hgate : gate.Closes) (hops : Closed ops) (depth : Nat) :
    Agrees gate beyond sameExpr (expression ops depth) ∧
      (∀ least lhs lhs' n r r', 0 ≤ least → sameExpr n lhs lhs' →
        Reader.Alike gate beyond r r' n →
        Agree gate beyond sameExpr n (climb ops depth least lhs r)
          (climb ops depth least lhs' r')) ∧
      Agrees gate beyond sameExpr (primary ops depth) := by
  induction depth with
  | zero =>
    exact ⟨fun n r r' h => fail_agree _ hgate h, fun _ _ _ n r r' _ _ h => fail_agree _ hgate h,
      fun n r r' h => fail_agree _ hgate h⟩
  | succ depth ih =>
    obtain ⟨hexpression, hclimb, hprimary⟩ := ih
    refine ⟨fun n r r' h => ?_, fun least lhs lhs' n r r' hleast hlhs h => ?_,
      primary_agrees hgate hexpression⟩
    · exact (hprimary n r r' h).bind fun e f m s s' hef hs _ =>
        hclimb 0 e f m s s' (le_refl 0) hef hs
    · exact rounds_agree h fun k k' hk hk' =>
        chain_agree hgate hops hprimary hclimb hleast h hk hk' hlhs

end Productions

/-! ### Forms -/

def samePrototype (_ : Nat) (p q : Prototype) : Prop := p.unplaced = q.unplaced

def sameForm (_ : Nat) (f g : Form) : Prop := f.unplaced = g.unplaced

theorem parameters_agree (hgate : gate.Closes) {fuel fuel' : Nat} (done : List String)
    (h : Reader.Alike gate beyond r r' n) (hn : n ≠ 0) (hfuel : n < fuel) (hfuel' : n < fuel') :
    Agree gate beyond (fun _ ps qs => ps = qs) n (parameters fuel done r)
      (parameters fuel' done r') := by
  induction fuel generalizing fuel' n r r' done with
  | zero => exact absurd hfuel (Nat.not_lt_zero _)
  | succ fuel ih =>
    obtain ⟨fuel', rfl⟩ : ∃ k, fuel' = k + 1 := ⟨fuel' - 1, by omega⟩
    obtain ⟨n, rfl⟩ := Nat.exists_eq_succ_of_ne_zero hn
    refine ((fetch_agree hgate h).bind fun t u m s s' htu hs hm => ?_).mono (Nat.le_succ n)
    obtain ⟨htu, hclosed⟩ := htu
    rcases htu with htu | ⟨htc, huc⟩
    · rw [← Token.kind_eq_of_unplaced htu]
      cases hkind : t.kind with
      | identifier name =>
        have hopen : ¬ t.Closes := by simp [Token.Closes, hkind]
        dsimp only
        split
        · exact fail_agree _ hgate hs
        · exact ih _ hs (fun hm => hopen (hclosed hm)) (by omega) (by omega)
      | _ => exact .pure hs rfl
    · have hdone : Agree gate beyond (fun _ ps qs => ps = qs) m
          ((Pure.pure done : Parse (List String)) s) ((Pure.pure done : Parse (List String)) s') :=
        .pure hs rfl
      rcases htc with htk | htk <;> rcases huc with huk | huk <;>
        simpa only [htk, huk] using hdone

theorem prototype_agrees (hgate : gate.Closes) : Agrees gate beyond samePrototype prototype := by
  intro n r r' h
  refine current_agree hgate h fun t u htu hclosed => ?_
  rcases htu with htu | ⟨htc, huc⟩
  · rw [← Token.kind_eq_of_unplaced htu]
    cases hkind : t.kind with
    | identifier name =>
      have hopen : ¬ t.Closes := by simp [Token.Closes, hkind]
      obtain ⟨n, rfl⟩ := Nat.exists_eq_succ_of_ne_zero fun hn => hopen (hclosed hn)
      refine ((fetch_agree hgate h).mono (Nat.le_succ n)).bind fun _ _ m s s' _ hs _ => ?_
      refine require_agree hgate (by decide) hs fun hm => ?_
      refine rounds_agree hs fun k k' hk hk' => ?_
      refine (parameters_agree hgate [] hs hm hk hk').bind fun ps qs m s s' hpq hs _ => ?_
      refine require_agree hgate (by decide) hs fun hm => ?_
      obtain ⟨m, rfl⟩ := Nat.exists_eq_succ_of_ne_zero hm
      refine ((fetch_agree hgate hs).mono (Nat.le_succ m)).bind fun _ _ m s s' _ hs _ => ?_
      refine .pure hs ?_
      rw [samePrototype, hpq]
      rfl
    | _ => exact fail_agree _ hgate h
  · have hfail : Agree gate beyond samePrototype n (fail .functionName r)
        (fail .functionName r') := fail_agree _ hgate h
    rcases htc with htk | htk <;> rcases huc with huk | huk <;>
      simpa only [htk, huk] using hfail

/-- Whatever kind of form is read: one that starts with a keyword starts in front of the gate. -/
theorem read_agree (hgate : gate.Closes) {ops : OperatorTable} (hops : Closed ops) (depth : Nat)
    (kind : FormKind) (h : Reader.Alike gate beyond r r' n) (hn : kind ≠ .expression → n ≠ 0) :
    Agree gate beyond sameForm n (kind.read ops depth r) (kind.read ops depth r') := by
  have hexpression := (@productions_agree gate beyond ops hgate hops depth).1
  cases kind with
  | definition =>
    obtain ⟨n, rfl⟩ := Nat.exists_eq_succ_of_ne_zero (hn (by decide))
    have hdefinition : Agree gate beyond (fun _ f g => f.unplaced = g.unplaced) (n + 1)
        (definition ops depth r) (definition ops depth r') := by
      refine ((fetch_agree hgate h).mono (Nat.le_succ n)).bind fun _ _ m s s' _ hs _ => ?_
      refine (prototype_agrees hgate m s s' hs).bind fun p q m s s' hpq hs _ => ?_
      refine (hexpression m s s' hs).bind fun e f m s s' hef hs _ => ?_
      refine .pure hs ?_
      have hp : p.unplaced = q.unplaced := hpq
      have he : e.unplaced = f.unplaced := hef
      simp only [Function.unplaced, hp, he]
    exact hdefinition.map fun m f g hfg => congrArg Form.function hfg
  | external =>
    obtain ⟨n, rfl⟩ := Nat.exists_eq_succ_of_ne_zero (hn (by decide))
    have hexternal : Agree gate beyond samePrototype (n + 1) (external r) (external r') := by
      refine ((fetch_agree hgate h).mono (Nat.le_succ n)).bind fun _ _ m s s' _ hs _ => ?_
      exact prototype_agrees hgate m s s' hs
    exact hexternal.map fun m p q hpq => congrArg Form.external hpq
  | expression =>
    have hbare : Agree gate beyond (fun _ f g => f.unplaced = g.unplaced) n
        (bareExpression ops depth r) (bareExpression ops depth r') := by
      refine current_agree hgate h fun t u _ _ => ?_
      refine (hexpression n r r' h).bind fun e f m s s' hef hs _ => ?_
      refine .pure hs ?_
      have he : e.unplaced = f.unplaced := hef
      simp only [Function.unplaced, Prototype.unplaced, he]
    exact hbare.map fun m f g hfg => congrArg Form.function hfg

/-- The grammar keeps the semicolon for itself. -/
theorem closed_of_reachable {ops : OperatorTable} (h : ops.Reachable) : Closed ops := by
  intro t ht
  rcases ht with hkind | hkind
  · simp [OperatorTable.precedence, hkind]
  · have hsymbol : t.isSymbol ";" = true := Token.isSymbol_of_kind hkind
    exact OperatorTable.precedence_of_not_joins
      (h.not_joins_of_isSymbol (by decide) hsymbol)

end Parse
end ScalarLang
