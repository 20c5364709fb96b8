import ScalarLang.Proofs.Parse.Rows
import ScalarLang.Proofs.Parse.Sources
import ScalarLang.Proofs.Token.Symbols

/-!
# Written forms are read back

A form can be written with parentheses wherever one likes, but at least around a left operand whose
own operator binds looser than the one that it stands at, and around a right operand whose own
operator does not bind tighter. Whatever is written in such a way, in any layout, is read as that
form again.
-/
namespace ScalarLang

/-! ### Writing forms -/

namespace Piece

def left : Piece := .symbol '(' ⟨by decide, by decide, by decide, by decide⟩

def right : Piece := .symbol ')' ⟨by decide, by decide, by decide, by decide⟩

def comma : Piece := .symbol ',' ⟨by decide, by decide, by decide, by decide⟩

def operator {ops : OperatorTable} (hops : ops.Visible) {c : Char} {p : Nat}
    (h : ops.entries.get? c = some p) : Piece :=
  .symbol c (OperatorTable.isSymbol_of_isOperator (hops c p h))

end Piece

/-- What is written: an expression, or the arguments of a call. Of an expression whose own operator
is not in parentheses, the precedence of that operator counts. -/
inductive Wording where
  | expression (top : Option Nat) (e : Expr)
  | arguments (es : List Expr)

/-- The ways to write expressions and arguments. -/
inductive Rendering {ops : OperatorTable} (hops : ops.Visible) : Wording → List Piece → Prop
  | number {literal : List Char} (h : IsLiteral literal) (location : Option Location) :
      Rendering hops (.expression none (.number (Decimal.literalValue literal) location))
        [.literal literal h]
  | name {name : String} (h : IsName name) (location : Option Location) :
      Rendering hops (.expression none (.var name location)) [.name name h]
  | call {name : String} {args : List Expr} {ps : List Piece} (h : IsName name)
      (hargs : Rendering hops (.arguments args) ps) (location : Option Location) :
      Rendering hops (.expression none (.call name args location))
        (.name name h :: .left :: (ps ++ [.right]))
  | parenthesized {top : Option Nat} {e : Expr} {ps : List Piece}
      (h : Rendering hops (.expression top e) ps) :
      Rendering hops (.expression none e) (.left :: (ps ++ [.right]))
  | binary {c : Char} {p : Nat} {left right : Option Nat} {lhs rhs : Expr} {ps qs : List Piece}
      (hop : ops.entries.get? c = some p) (hlhs : Rendering hops (.expression left lhs) ps)
      (hleft : ∀ q ∈ left, p ≤ q) (hrhs : Rendering hops (.expression right rhs) qs)
      (hright : ∀ q ∈ right, p < q) (location : Option Location) :
      Rendering hops (.expression (some p) (.binary (String.singleton c) lhs rhs location))
        (ps ++ .operator hops hop :: qs)
  | noArguments : Rendering hops (.arguments []) []
  | lastArgument {top : Option Nat} {e : Expr} {ps : List Piece}
      (h : Rendering hops (.expression top e) ps) : Rendering hops (.arguments [e]) ps
  | argument {top : Option Nat} {e second : Expr} {rest : List Expr} {ps qs : List Piece}
      (h : Rendering hops (.expression top e) ps)
      (hrest : Rendering hops (.arguments (second :: rest)) qs) :
      Rendering hops (.arguments (e :: second :: rest)) (ps ++ .comma :: qs)

/-- The names of a prototype can be written, and the parameters can be told apart. -/
structure Prototype.Writable (p : Prototype) : Prop where
  name : IsName p.name
  params : ∀ param ∈ p.params, IsName param
  distinct : p.params.Nodup

def Prototype.pieces (p : Prototype) (h : p.Writable) : List Piece :=
  .name p.name h.name :: .left :: (p.params.pmap Piece.name h.params ++ [.right])

inductive FormRendering {ops : OperatorTable} (hops : ops.Visible) : Form → List Piece → Prop
  | definition {p : Prototype} {top : Option Nat} {body : Expr} {ps : List Piece} (hp : p.Writable)
      (hbody : Rendering hops (.expression top body) ps) :
      FormRendering hops (.function ⟨p, body⟩) (.define :: (p.pieces hp ++ ps))
  | external {p : Prototype} (hp : p.Writable) :
      FormRendering hops (.external p) (.external :: p.pieces hp)
  | expression {top : Option Nat} {body : Expr} {ps : List Piece} (location : Option Location)
      (hbody : Rendering hops (.expression top body) ps) :
      FormRendering hops (.function ⟨⟨"", [], location⟩, body⟩) ps

/-! ### Chains -/

namespace Parse

/-- Tokens are a chain of operands, which means the expression up to places. None of its operators
binds looser than `top`; without operators there is a single operand. -/
inductive Chained (ops : OperatorTable) (top : Option Nat) (e : Expr) : List Token → Prop
  | mk {first : Expr} {ts : List Token} {links : List Link}
      (hfirst : Reading ops (.operand first) ts) (hjoins : ∀ link ∈ links, ops.Joins link.op)
      (hlinks : ∀ link ∈ links, Reading ops (.operand link.operand) link.tokens)
      (htree : (group ops first links).unplaced = e.unplaced)
      (hranks : ∀ link ∈ links, ∃ p ∈ top, (p : Int) ≤ link.rank ops) :
      Chained ops top e (ts ++ links.flatMap Link.written)

section

variable {ops : OperatorTable} {top left right : Option Nat} {e own lhs rhs : Expr}
  {ts us : List Token}

theorem Chained.operand (h : Reading ops (.operand own) ts) (hown : own.unplaced = e.unplaced) :
    Chained ops none e ts := by
  have htree : (group ops own []).unplaced = e.unplaced := by rw [group_nil, hown]
  have hchain : Chained ops none e (ts ++ [].flatMap Link.written) :=
    .mk h (by simp) (by simp) htree (by simp)
  rwa [List.flatMap_nil, List.append_nil] at hchain

theorem Chained.reading (h : Chained ops top e ts) :
    ∃ own, Reading ops (.expression own) ts ∧ own.unplaced = e.unplaced := by
  cases h with
  | mk hfirst hjoins hlinks htree _ => exact ⟨_, .chain hfirst hjoins hlinks, htree⟩

/-- The operator between two chains is the last of those that bind least. -/
theorem Chained.binary {op : Token} {text : String} {p : Nat} (hop : ops.Joins op)
    (hkind : op.kind = .symbol text) (hrank : ops.precedence op = p)
    (hlhs : Chained ops left lhs ts) (hleft : ∀ q ∈ left, p ≤ q)
    (hrhs : Chained ops right rhs us) (hright : ∀ q ∈ right, p < q)
    (location : Option Location) :
    Chained ops (some p) (.binary text lhs rhs location) (ts ++ op :: us) := by
  -- Both sides become parts of one chain, whose tree is only known by where it is cut: at `op`.
  obtain @⟨first, front, links, hfirst, hjoins, hlinks, htree, hranks⟩ := hlhs
  obtain @⟨second, front', links', hsecond, hjoins', hlinks', htree', hranks'⟩ := hrhs
  have hmiddle : Link.rank ops ⟨op, second, front'⟩ = p := hrank
  have hlowest : (Cut.mk links ⟨op, second, front'⟩ links').Lowest ops := by
    refine ⟨fun link hlink => ?_, fun link hlink => ?_⟩
    · obtain ⟨q, hq, hle⟩ := hranks link hlink
      have hbound := hleft q hq
      rw [hmiddle]
      omega
    · obtain ⟨q, hq, hle⟩ := hranks' link hlink
      have hbound := hright q hq
      rw [hmiddle]
      omega
  have hword : op.word = text := Token.word_of_kind hkind
  have hgroup := group_links hlowest first
  have hmem : ∀ link ∈ (Cut.mk links ⟨op, second, front'⟩ links').links,
      link ∈ links ∨ link = ⟨op, second, front'⟩ ∨ link ∈ links' := by
    intro link hlink
    simpa [Cut.links] using hlink
  have htokens : front ++ links.flatMap Link.written ++
      op :: (front' ++ links'.flatMap Link.written) =
        front ++ (Cut.mk links ⟨op, second, front'⟩ links').links.flatMap Link.written := by
    simp [Cut.links, Link.written]
  rw [htokens]
  refine .mk hfirst (fun link hlink => ?_) (fun link hlink => ?_) ?_ fun link hlink => ?_
  · rcases hmem link hlink with h | rfl | h
    · exact hjoins link h
    · exact hop
    · exact hjoins' link h
  · rcases hmem link hlink with h | rfl | h
    · exact hlinks link h
    · exact hsecond
    · exact hlinks' link h
  · rw [hgroup, Expr.unplaced, Expr.unplaced, hword, htree, htree']
  · have hle := hlowest.le_of_mem link hlink
    rw [hmiddle] at hle
    exact ⟨p, rfl, hle⟩

end

/-! ### Tokens of pieces -/

section

variable {ts : List Token} {ps qs : List Piece} {p : Piece}

theorem tokens_cons (h : ts.map Token.kind = (p :: ps).map Piece.kind) :
    ∃ t us, ts = t :: us ∧ t.kind = p.kind ∧ us.map Token.kind = ps.map Piece.kind := by
  rw [List.map_cons] at h
  exact List.map_eq_cons_iff.1 h

theorem tokens_append (h : ts.map Token.kind = (ps ++ qs).map Piece.kind) :
    ∃ us vs, ts = us ++ vs ∧ us.map Token.kind = ps.map Piece.kind ∧
      vs.map Token.kind = qs.map Piece.kind := by
  rw [List.map_append] at h
  exact List.map_eq_append_iff.1 h

theorem tokens_singleton (h : ts.map Token.kind = [p].map Piece.kind) :
    ∃ t, ts = [t] ∧ t.kind = p.kind := by
  obtain ⟨t, us, rfl, ht, hus⟩ := tokens_cons h
  obtain rfl : us = [] := List.map_eq_nil_iff.1 hus
  exact ⟨t, rfl, ht⟩

theorem tokens_between {first last : Piece}
    (h : ts.map Token.kind = (first :: (ps ++ [last])).map Piece.kind) :
    ∃ t us u, ts = t :: (us ++ [u]) ∧ t.kind = first.kind ∧ us.map Token.kind = ps.map Piece.kind ∧
      u.kind = last.kind := by
  obtain ⟨t, vs, rfl, ht, hvs⟩ := tokens_cons h
  obtain ⟨us, ws, rfl, hus, hws⟩ := tokens_append hvs
  obtain ⟨u, rfl, hu⟩ := tokens_singleton hws
  exact ⟨t, us, u, rfl, ht, hus, hu⟩

end

/-! ### Writing is reading -/

def ReadAs (ops : OperatorTable) (ts : List Token) : Wording → Prop
  | .expression top e => Chained ops top e ts
  | .arguments es => ∃ own, Reading ops (.arguments own) ts ∧
      Expr.unplacedAll own = Expr.unplacedAll es

/-- The induction is on the writing. Of an expression it keeps the chain and not just a reading: a
reading would not say which operators a further operator has to leave together. -/
theorem readAs_of_rendering {ops : OperatorTable} {hops : ops.Visible} {wording : Wording}
    {ps : List Piece} (h : Rendering hops wording ps) {ts : List Token}
    (hts : ts.map Token.kind = ps.map Piece.kind) : ReadAs ops ts wording := by
  induction h generalizing ts with
  | number h location =>
    obtain ⟨t, rfl, ht⟩ := tokens_singleton hts
    exact .operand (.number ht) rfl
  | name h location =>
    obtain ⟨t, rfl, ht⟩ := tokens_singleton hts
    exact .operand (.name ht) rfl
  | call h _ location ih =>
    obtain ⟨t, us, rfl, ht, hus⟩ := tokens_cons hts
    obtain ⟨left, vs, right, rfl, hleft, hvs, hright⟩ := tokens_between hus
    obtain ⟨own, hown, hargs⟩ := ih hvs
    refine .operand (.call ht (Token.isSymbol_of_kind hleft) hown (Token.isSymbol_of_kind hright)) ?_
    rw [Expr.unplaced, Expr.unplaced, hargs]
  | parenthesized _ ih =>
    obtain ⟨left, us, right, rfl, hleft, hus, hright⟩ := tokens_between hts
    obtain ⟨own, hown, heq⟩ := (ih hus).reading
    exact .operand (.parenthesized (Token.isSymbol_of_kind hleft) hown (Token.isSymbol_of_kind hright)) heq
  | @binary c p _ _ _ _ _ _ hop _ hleft _ hright location ihlhs ihrhs =>
    obtain ⟨us, vs, rfl, hus, hvs⟩ := tokens_append hts
    obtain ⟨op, vs, rfl, hkind, hvs⟩ := tokens_cons hvs
    have hsingle : op.kind = .symbol (String.singleton c) := hkind
    have hrank : ops.precedence op = p := by
      simp [OperatorTable.precedence, OperatorTable.precedenceOf, hsingle, hop]
    have hjoins : ops.Joins op := OperatorTable.joins_of_precedence (by omega)
    exact .binary hjoins hsingle hrank (ihlhs hus) hleft (ihrhs hvs) hright location
  | noArguments =>
    obtain rfl : ts = [] := List.map_eq_nil_iff.1 hts
    exact ⟨[], .noArguments, rfl⟩
  | lastArgument _ ih =>
    obtain ⟨own, hown, heq⟩ := (ih hts).reading
    refine ⟨[own], .lastArgument hown, ?_⟩
    simp only [Expr.unplacedAll, heq]
  | argument _ _ ih ihrest =>
    obtain ⟨us, vs, rfl, hus, hvs⟩ := tokens_append hts
    obtain ⟨comma, vs, rfl, hcomma, hvs⟩ := tokens_cons hvs
    obtain ⟨own, hown, heq⟩ := (ih hus).reading
    obtain ⟨others, hothers, hrest⟩ := ihrest hvs
    cases others with
    | nil => cases hrest
    | cons second rest =>
      refine ⟨own :: second :: rest, .argument hown (Token.isSymbol_of_kind hcomma) hothers, ?_⟩
      rw [Expr.unplacedAll, heq, hrest]
      rfl

section

variable {ops : OperatorTable} {r after : Reader} {ts : List Token} {ps : List Piece}

theorem prototype_of_pieces {p : Prototype} (h : p.Writable)
    (hts : ts.map Token.kind = (p.pieces h).map Piece.kind) (hp : r.Passes ts after) :
    ∃ location, prototype r = .ok ⟨p.name, p.params, location⟩ after := by
  obtain ⟨t, us, rfl, ht, hus⟩ := tokens_cons hts
  obtain ⟨left, params, right, rfl, hleft, hparams, hright⟩ := tokens_between hus
  have hnames : params.map Token.kind = p.params.map TokenKind.identifier := by
    rw [hparams, List.map_pmap]
    exact List.pmap_eq_map ..
  exact ⟨t.location, prototype_eq ht (Token.isSymbol_of_kind hleft) hnames h.distinct
    (Token.isSymbol_of_kind hright) hp⟩

variable {ending : Token}

theorem expression_of_rendering (hops : ops.Reachable) {top : Option Nat} {body : Expr}
    (h : Rendering hops.visible (.expression top body) ps)
    (hts : ts.map Token.kind = ps.map Piece.kind) (hp : r.Passes ts after)
    (hc : after.current = some ending) (hend : ending.isEnd = true) :
    ∃ own, own.unplaced = body.unplaced ∧ Settles (expression ops) r own after ∧
      ∃ t rest, ts = t :: rest ∧ t.Opens := by
  obtain ⟨own, hown, heq⟩ := (readAs_of_rendering h hts).reading
  obtain ⟨hto, hno⟩ := passesTo_end ops hp hc hend
  exact ⟨own, heq, phraseSettles_of_reading hops hown r ending after hto hno, hown.starts (by simp)⟩

/-- The tokens of a form are read as the form, and the first of them is no separator. -/
theorem form_of_rendering (hops : ops.Reachable) {form : Form}
    (h : FormRendering hops.visible form ps) (hts : ts.map Token.kind = ps.map Piece.kind)
    (hp : r.Passes ts after) (hc : after.current = some ending) (hend : ending.isEnd = true) :
    ∃ parsed, parsed.unplaced = form.unplaced ∧ Settles (form? ops) r (some parsed) after ∧
      ∃ t, r.current = some t ∧ t.isSymbol ";" = false := by
  cases h with
  | @definition p _ body _ hwritable hbody =>
    obtain ⟨t, us, rfl, ht, hus⟩ := tokens_cons hts
    obtain ⟨heading, rest, rfl, hheading, hrest⟩ := tokens_append hus
    have hpasses : r.Passes ([t] ++ (heading ++ rest)) after := hp
    obtain ⟨start, hkeyword, hpasses⟩ := hpasses.split
    obtain ⟨middle, hproto, hexpr⟩ := hpasses.split
    obtain ⟨location, hproto⟩ := prototype_of_pieces hwritable hheading hproto
    obtain ⟨own, heq, hown, _⟩ := expression_of_rendering hops hbody hrest hexpr hc hend
    have hdefine : t.kind = .define := ht
    refine ⟨_, ?_, form_of_definition hdefine hkeyword hproto hown, t, hp.current_eq, ?_⟩
    · simp only [Form.unplaced, Function.unplaced, heq]
      rfl
    · rw [Token.isSymbol, hdefine]
  | @external p hwritable =>
    obtain ⟨t, heading, rfl, ht, hheading⟩ := tokens_cons hts
    have hpasses : r.Passes ([t] ++ heading) after := hp
    obtain ⟨start, hkeyword, hproto⟩ := hpasses.split
    obtain ⟨location, hproto⟩ := prototype_of_pieces hwritable hheading hproto
    have hexternal : t.kind = .external := ht
    refine ⟨.external ⟨p.name, p.params, location⟩, rfl,
      form_of_external hexternal hkeyword hproto, t, hp.current_eq, ?_⟩
    rw [Token.isSymbol, hexternal]
  | @expression _ body _ location hbody =>
    obtain ⟨own, heq, hown, t, rest, rfl, ht⟩ :=
      expression_of_rendering hops hbody hts hp hc hend
    refine ⟨_, ?_, form_of_expression hp.current_eq ht hown, t, hp.current_eq,
      ht.isSymbol_eq_false (by decide)⟩
    simp only [Form.unplaced, Function.unplaced, heq]
    rfl

theorem first_of_form {form : Form} {start : Reader} {t u : Token} (hfetch : fetch r = .ok t start)
    (hc : start.current = some u) (hu : u.isSymbol ";" = false)
    (h : Settles (form? ops) start (some form) after) : Settles (first ops) r form after := by
  refine Settles.after_ok hfetch (Settles.after_ok (rounds_eq start) ?_)
  refine Settles.after_ok (passSeparators_stop hc hu) (h.bind ?_)
  exact Settles.of_ok fun _ => rfl

/-- Whatever is written for a form, in any layout, is read as that form, up to places. This holds
for every depth budget from some size on; a smaller one is exhausted. -/
theorem rendered_form_is_read_back (hops : ops.Reachable) {form : Form}
    (h : FormRendering hops.visible form ps) {source : List Char} (hlayout : Layout ps source)
    (file : String) :
    ∃ parsed need, parsed.unplaced = form.unplaced ∧ ∀ depth,
      (need ≤ depth → (first ops depth).result (.ofSource file source) = .ok parsed) ∧
      (depth < need → ∃ failure, (first ops depth).result (.ofSource file source) = .error failure ∧
        failure.diagnostic.code = some "P004") := by
  obtain ⟨tokens, ending, htokens, hending, hpieces⟩ := tokenize_of_layout hlayout file
  have hkinds : tokens.map Token.kind = ps.map Piece.kind := by
    have hfirst := congrArg (List.map Prod.fst) hpieces
    simpa [Function.comp_def] using hfirst
  obtain ⟨t, start, after, hfetch, hp, hce⟩ := passes_of_tokenize htokens
  obtain ⟨parsed, heq, hform, u, hc, hu⟩ := form_of_rendering hops h hkinds hp hce hending
  obtain ⟨need, hsettles⟩ := first_of_form hfetch hc hu hform
  refine ⟨parsed, need, heq, fun depth => ⟨fun hle => ?_, fun hlt => ?_⟩⟩
  · exact result_eq_ok.2 ⟨after, (hsettles depth).1 hle⟩
  · obtain ⟨v, stop, hdeep⟩ := (hsettles depth).2 hlt
    refine ⟨.unexpected .lessNesting v, ?_, rfl⟩
    rw [Parse.result, hdeep]

end

section

open OperatorTable

theorem isName_letter {c : Char} (hx : c.isAlpha = true) : IsName (String.singleton c) := by
  have hlist : (String.singleton c).toList = [c] := String.toList_singleton c
  have hlength : ∀ keyword : String, keyword.toList.length ≠ 1 → String.singleton c ≠ keyword := by
    rintro keyword hne rfl
    rw [hlist] at hne
    exact hne rfl
  refine ⟨⟨c, [], hlist, hx, by simp⟩, hlength _ (by decide), hlength _ (by decide)⟩

theorem isName_f : IsName "f" := isName_letter (c := 'f') rfl

theorem isName_x : IsName "x" := isName_letter (c := 'x') rfl

theorem isLiteral_two : IsLiteral ['2', '.'] where
  numeric := List.all_eq_true.1 rfl
  point := by simp
  digit := ⟨'2', by simp, rfl⟩

def writtenSource : List Char := "def f(x) # one\n (x+2.)*x".toList

def writtenForm : Form :=
  .function ⟨⟨"f", ["x"], none⟩, .binary "*" (.binary "+" (.var "x" none)
    (.number (Decimal.literalValue ['2', '.']) none) none) (.var "x" none) none⟩

theorem standard_plus : standard.entries.get? '+' = some 20 := rfl

theorem standard_times : standard.entries.get? '*' = some 40 := rfl

def writtenPieces : List Piece :=
  [.define, .name "f" isName_f, .left, .name "x" isName_x, .right, .left, .name "x" isName_x,
    .operator Reachable.standard.visible standard_plus, .literal _ isLiteral_two, .right,
    .operator Reachable.standard.visible standard_times, .name "x" isName_x]

theorem rendering_writtenForm :
    FormRendering Reachable.standard.visible writtenForm writtenPieces := by
  have hwritable : Prototype.Writable ⟨"f", ["x"], none⟩ :=
    ⟨isName_f, by simpa using isName_x, List.nodup_singleton _⟩
  have hx : Rendering Reachable.standard.visible (.expression none (.var "x" none)) _ :=
    .name isName_x none
  have hsum : Rendering Reachable.standard.visible (.expression (some 20) _) _ :=
    .binary standard_plus hx (by simp) (.number isLiteral_two none) (by simp) none
  exact .definition hwritable
    (.binary standard_times (.parenthesized hsum) (by simp) hx (by simp) none)

theorem layout_writtenSource : Layout writtenPieces writtenSource := by
  have hblank : Text.isBlank ' ' = true := by decide
  have hfeed : Text.isBlank '\n' = true := by decide
  have hspace : ∀ rest, Gap [' '] rest := fun rest => .blank hblank (.nil rest)
  have hcomment : Gap " # one\n ".toList "(x+2.)*x".toList := by
    refine .blank hblank (@Gap.comment [' ', 'o', 'n', 'e'] ['\n', ' '] _ (by simp [endsLine]) ?_
      (.blank hfeed (hspace _)))
    intro c hc
    cases hc
    decide
  have hnone : ∀ {p : Piece} {ps : List Piece} {rest : List Char}, p.Before rest → Layout ps rest →
      Layout (p :: ps) (p.text ++ rest) := fun hp h => .piece (.nil _) hp h
  refine @Layout.spaced _ _ [] [' '] _ (.nil _) (hspace _) (by simp) ?_
  refine @Layout.piece _ _ [' '] _ (hspace _)
    (Piece.before_cons _ (c := '(') (by decide) (by decide) _) ?_
  refine hnone (Piece.symbol_before _ _) ?_
  refine hnone (Piece.before_cons _ (c := ')') (by decide) (by decide) _) ?_
  refine hnone (Piece.symbol_before _ _) ?_
  refine .piece hcomment (Piece.symbol_before _ _) ?_
  refine hnone (Piece.before_cons _ (c := '+') (by decide) (by decide) _) ?_
  refine hnone (Piece.symbol_before _ _) ?_
  refine hnone (Piece.before_cons _ (c := ')') (by decide) (by decide) _) ?_
  refine hnone (Piece.symbol_before _ _) ?_
  refine hnone (Piece.symbol_before _ _) ?_
  exact hnone (Piece.spells _) (.ending (.nil _))

/-- Parentheses that are needed, a comment in a gap, and gaps that are left out. -/
theorem rendered_form_is_read_back_needed_parentheses :
    (Reachable standard ∧ FormRendering Reachable.standard.visible writtenForm writtenPieces ∧
      Layout writtenPieces writtenSource) ∧
    ∃ parsed need, parsed.unplaced = writtenForm.unplaced ∧ ∀ depth,
      (need ≤ depth → (first standard depth).result (.ofSource "" writtenSource) = .ok parsed) ∧
      (depth < need →
        ∃ failure, (first standard depth).result (.ofSource "" writtenSource) = .error failure ∧
          failure.diagnostic.code = some "P004") :=
  ⟨⟨.standard, rendering_writtenForm, layout_writtenSource⟩,
    rendered_form_is_read_back .standard rendering_writtenForm layout_writtenSource ""⟩

end

end Parse
end ScalarLang
