import ScalarLang.Proofs.Parse.Alike
import ScalarLang.Proofs.Parse.Rows
import ScalarLang.Proofs.Token.Decimals
import ScalarLang.Proofs.Token.Positions

/-!
# Where the nodes of a tree stand

Every node of a tree has the place of the token that it was made of. In a tree from left to right,
with an operator between its operands and a name in front of its arguments, these tokens come in the
order of the source, and the forms of a source come one behind the other. So at the place of a node
stands what the node says, and no token makes two nodes.
-/
namespace ScalarLang

/-! ### The marks of a tree -/

/-- What a node or a token says, and where. -/
structure Mark where
  kind : TokenKind
  location : Option Location

def Token.mark (t : Token) : Mark := ⟨t.kind, t.location⟩

/-- A text starts with what a kind of token says. A number is said by a whole run of digits and
points, in which the longest beginning that is a decimal literal counts. -/
inductive Says (text : List Char) : TokenKind → Prop
  | define (h : "def".toList <+: text) : Says text .define
  | external (h : "extern".toList <+: text) : Says text .external
  | name {name : String} (h : name.toList <+: text) : Says text (.identifier name)
  | symbol {c : Char} (h : text.head? = some c) : Says text (.symbol (String.singleton c))
  | number {part rest : List Char} (hrun : text.takeWhile isNumeric = part ++ rest)
      (h : Longest IsLiteral part rest) : Says text (.number (Decimal.literalValue part))

/-- The mark has a place, and the source says there what the mark says. -/
def Mark.StandsIn (m : Mark) (source : List Char) : Prop :=
  ∃ location index, m.location = some location ∧ location.offset = (index : Nat) ∧
    Says (source.drop index) m.kind

def Mark.Before (m n : Mark) : Prop :=
  ∃ l k, m.location = some l ∧ n.location = some k ∧ l.offset < k.offset

theorem says_of_spells {text rest : List Char} {t : Token} (h : Spells text rest (.token t)) :
    Says (text ++ rest) t.kind := by
  cases h with
  | define h ht =>
    rw [ht]
    exact .define (List.prefix_append _ _)
  | external h ht =>
    rw [ht]
    exact .external (List.prefix_append _ _)
  | identifier h _ _ =>
    refine .name ?_
    rw [String.toList_ofList]
    exact List.prefix_append _ _
  | number h hpart =>
    obtain ⟨tail, rfl, hlongest⟩ := longest_of_numberPart? h.holds.2 hpart
    refine .number (h.takeWhile_eq h.holds.2 ?_) hlongest
    obtain ⟨x, more, hx⟩ := List.exists_cons_of_ne_nil h.holds.1
    rw [hx, List.cons_append]
    refine numberlike_takeWhile (h.holds.2 x ?_)
    rw [hx]
    exact List.mem_cons_self ..
  | symbol ht _ _ _ _ =>
    subst ht
    exact .symbol rfl

theorem Token.StandsAt.mark {t : Token} {source : List Char} {index : Nat}
    (h : t.StandsAt source index) : t.mark.StandsIn source := by
  obtain ⟨location, hlocation, hoffset⟩ := h.place
  obtain ⟨text, rest, htext, hspells⟩ := h.spelled
  refine ⟨location, index, hlocation, hoffset, ?_⟩
  rw [htext]
  exact says_of_spells hspells

namespace Expr

def marks : Expr → List Mark
  | number value location => [⟨.number value, location⟩]
  | var name location => [⟨.identifier name, location⟩]
  | binary op lhs rhs location => lhs.marks ++ ⟨.symbol op, location⟩ :: rhs.marks
  | call callee args location => ⟨.identifier callee, location⟩ :: args.flatMap marks

theorem marks_reference (name : String) (location : Option Location) (args : Option (List Expr)) :
    (reference name location args).marks =
      ⟨.identifier name, location⟩ :: (args.getD []).flatMap marks := by
  cases args with
  | none => rw [reference, marks, Option.getD_none, List.flatMap_nil]
  | some args => rw [reference, marks, Option.getD_some]

end Expr

def Prototype.mark (p : Prototype) : Mark := ⟨.identifier p.name, p.location⟩

/-- The name of a form, if it has one, and the nodes of its body. -/
def Form.marks : Form → List Mark
  | .function f =>
    if f.prototype.isAnonymous then f.body.marks else f.prototype.mark :: f.body.marks
  | .external p => [p.mark]

namespace Parse

variable {α β : Type} {r middle after : Reader} {t : Token} {ms ms' : List Mark}

/-! ### Marks of the tokens that are passed -/

/-- A reader passes tokens, and among them, in this order, are some with the given marks. -/
def Marked (r : Reader) (ms : List Mark) (after : Reader) : Prop :=
  ∃ ts, r.Passes ts after ∧ ms.Sublist (ts.map Token.mark)

theorem Marked.append (h : Marked r ms middle) (h' : Marked middle ms' after) :
    Marked r (ms ++ ms') after := by
  obtain ⟨ts, hp, hts⟩ := h
  obtain ⟨us, hp', hus⟩ := h'
  refine ⟨ts ++ us, hp.append hp', ?_⟩
  rw [List.map_append]
  exact hts.append hus

/-- If the step succeeds at the reader, then it passes tokens with marks that `post` relates to what
it returns. -/
def Emits (post : α → List Mark → Prop) (x : Parse α) (r : Reader) : Prop :=
  ∀ a after, x r = .ok a after → ∃ ms, Marked r ms after ∧ post a ms

/-- The step does so wherever it is started. -/
def Leaves (post : α → List Mark → Prop) (x : Parse α) : Prop :=
  ∀ r : Reader, r.Standing → Emits post x r

namespace Emits

variable {post : α → List Mark → Prop} {post' : β → List Mark → Prop} {x : Parse α}

theorem bind {f : α → Parse β} (hr : r.Standing) (hx : Emits post x r)
    (hf : ∀ a ms, post a ms → Leaves (fun b ms' => post' b (ms ++ ms')) (f a)) :
    Emits post' (x >>= f) r := by
  intro b after h
  obtain ⟨a, middle, ha, hb⟩ := step_bind_eq_ok.1 h
  obtain ⟨ms, hms, hpost⟩ := hx a middle ha
  obtain ⟨ts, hp, _⟩ := id hms
  obtain ⟨ms', hms', hpost'⟩ := hf a ms hpost middle (hr.passes hp) b after hb
  exact ⟨ms ++ ms', hms.append hms', hpost'⟩

theorem map {y : Parse β} {g : β → α} (h : Emits (fun b => post (g b)) y r) :
    Emits post (g <$> y) r := by
  intro a after hmap
  obtain ⟨b, hb, rfl⟩ := step_map_eq_ok hmap
  exact h b after hb

theorem of_eq {y : Parse α} (h : Emits post y r) (heq : x r = y r) : Emits post x r :=
  fun a after hx => h a after (heq ▸ hx)

theorem of_fail (expected : Expectation) : Emits post (fail expected : Parse α) r :=
  fun _ _ h => absurd h fail_ne_ok

end Emits

namespace Leaves

variable {post : α → List Mark → Prop} {post' : β → List Mark → Prop} {x : Parse α}

theorem bind {f : α → Parse β} (hx : Leaves post x)
    (hf : ∀ a ms, post a ms → Leaves (fun b ms' => post' b (ms ++ ms')) (f a)) :
    Leaves post' (x >>= f) :=
  fun r hr => (hx r hr).bind hr hf

theorem weaken {weaker : α → List Mark → Prop} (hx : Leaves post x)
    (h : ∀ a ms, post a ms → weaker a ms) : Leaves weaker x := by
  intro r hr a after hstep
  obtain ⟨ms, hms, hpost⟩ := hx r hr a after hstep
  exact ⟨ms, hms, h a ms hpost⟩

theorem pure {a : α} (h : post a []) : Leaves post (Pure.pure a : Parse α) := by
  intro r _ b after hb
  cases hb
  exact ⟨[], ⟨[], .nil r, .refl _⟩, h⟩

/-- What is passed first need not leave a mark. -/
theorem skip {f : α → Parse β} (hx : Advances x) (hf : ∀ a, Leaves post' (f a)) :
    Leaves post' (x >>= f) := by
  have hnone : Leaves (fun _ ms => ms = []) x := by
    intro r hr a after h
    obtain ⟨ts, hp⟩ := (hx r hr).ok a after h
    exact ⟨[], ⟨ts, hp, List.nil_sublist _⟩, rfl⟩
  refine hnone.bind fun a ms hms => ?_
  rw [hms]
  exact hf a

theorem ite {c : Prop} [Decidable c] {y : Parse α} (hx : Leaves post x) (hy : Leaves post y) :
    Leaves post (if c then x else y) := by
  split
  · exact hx
  · exact hy

theorem fail (expected : Expectation) : Leaves post (Parse.fail expected : Parse α) :=
  fun _ _ => .of_fail expected

end Leaves

/-- The current token leaves its mark when it is passed, unless it is the end. -/
theorem fetch_emits (hr : r.Standing) (hc : r.current = some t) (ht : t.isEnd = false) :
    Emits (fun _ ms => ms = [t.mark]) fetch r := by
  intro next after h
  have hp := (fetch_eq_ok hr.inside.ends hc ht h).1
  exact ⟨_, ⟨[t], hp, .refl _⟩, rfl⟩

/-! ### Expressions -/

/-- An expression leaves the marks of its nodes. -/
def Placed (e : Expr) (ms : List Mark) : Prop := ms = e.marks

/-- To the right of an operand, an expression leaves the marks of its other nodes. -/
def PlacedRight (lhs e : Expr) (ms : List Mark) : Prop := e.marks = lhs.marks ++ ms

/-- Behind other arguments, arguments leave the marks of their nodes. -/
def PlacedArguments (done args : List Expr) (ms : List Mark) : Prop :=
  args.flatMap Expr.marks = done.flatMap Expr.marks ++ ms

section Expressions

variable {ops : OperatorTable} {inner : Parse Expr}

theorem rightSide_leaves {climb : Int → Expr → Parse Expr}
    (hclimb : ∀ least lhs, 0 ≤ least → Leaves (PlacedRight lhs) (climb least lhs))
    {precedence : Int} (hle : 0 ≤ precedence) (operand : Expr) :
    Leaves (PlacedRight operand) (rightSide ops climb precedence operand) :=
  .skip current_advances fun _ => .ite (hclimb _ operand (by omega))
    (.pure (List.append_nil _).symm)

theorem chain_leaves {primary : Parse Expr} {climb : Int → Expr → Parse Expr} {least : Int}
    (hleast : 0 ≤ least) (hprimary : Leaves Placed primary)
    (hclimb : ∀ least lhs, 0 ≤ least → Leaves (PlacedRight lhs) (climb least lhs)) (fuel : Nat)
    (lhs : Expr) : Leaves (PlacedRight lhs) (chain ops primary climb least fuel lhs) := by
  -- Each round puts an operator and its right side behind all that was there before.
  induction fuel generalizing lhs with
  | zero => exact .pure (List.append_nil _).symm
  | succ fuel ih =>
    intro r hr
    obtain ⟨op, hc⟩ := hr.current
    refine .of_eq ?_ (step_bind_ok (current_of_some hc))
    split
    · exact Leaves.pure (List.append_nil _).symm r hr
    · next hreached =>
      obtain ⟨text, hkind, _⟩ : ops.Joins op := OperatorTable.joins_of_precedence (by omega)
      refine (fetch_emits hr hc (by rw [Token.isEnd, hkind])).bind hr fun _ ms hop => ?_
      refine hprimary.bind fun operand ms' hoperand => ?_
      refine (rightSide_leaves hclimb (by omega) operand).bind fun rhs tight hright => ?_
      refine (ih _).weaken fun e loose hloose => ?_
      rw [PlacedRight, hloose, Expr.marks, hright, hop, hoperand, Token.mark, hkind,
        Token.word_of_kind hkind]
      simp

theorem parenthesized_leaves (hinner : Leaves Placed inner) :
    Leaves Placed (parenthesized inner) := by
  refine .skip fetch_advances fun _ => hinner.bind fun e ms he => ?_
  refine .skip (require_advances _ _) fun _ => .skip fetch_advances fun _ => .pure ?_
  rw [List.append_nil]
  exact he

theorem arguments_leaves (hinner : Leaves Placed inner) (fuel : Nat) (done : List Expr) :
    Leaves (PlacedArguments done) (arguments inner fuel done) := by
  induction fuel generalizing done with
  | zero => exact .pure (List.append_nil _).symm
  | succ fuel ih =>
    refine hinner.bind fun arg ms harg => .skip current_advances fun t => .ite (.pure ?_) ?_
    · rw [PlacedArguments, List.flatMap_append, List.flatMap_singleton, List.append_nil, harg]
    · refine .skip (require_advances _ _) fun _ => .skip fetch_advances fun _ => ?_
      refine (ih _).weaken fun args ms' hargs => ?_
      rw [PlacedArguments, hargs, List.flatMap_append, List.flatMap_singleton, harg,
        List.append_assoc]

theorem application_emits {name : String} (hinner : Leaves Placed inner) (hr : r.Standing)
    (hc : r.current = some t) (ht : t.kind = .identifier name) :
    Emits (fun args ms => ms = (Expr.reference name t.location args).marks)
      (application inner) r := by
  refine (fetch_emits hr hc (by rw [Token.isEnd, ht])).bind hr fun next ms hname => ?_
  have hmark : ms = [⟨.identifier name, t.location⟩] := by rw [hname, Token.mark, ht]
  have hlist : Leaves (PlacedArguments []) (argumentList inner) :=
    .skip fetch_advances fun _ => .ite (.pure rfl)
      (.skip rounds_advances fun fuel => arguments_leaves hinner fuel [])
  refine .ite (hlist.bind fun args ms' hargs => .skip fetch_advances fun _ => .pure ?_) (.pure ?_)
  · rw [Expr.marks_reference, hmark, Option.getD_some, hargs, List.append_nil]
    rfl
  · rw [Expr.marks_reference, hmark]
    rfl

theorem primary_leaves {depth : Nat} (hinner : Leaves Placed (expression ops depth)) :
    Leaves Placed (primary ops (depth + 1)) := by
  intro r hr
  obtain ⟨t, hc⟩ := hr.current
  refine .of_eq ?_ (step_bind_ok (current_of_some hc))
  cases hkind : t.kind with
  | identifier name =>
    refine (application_emits hinner hr hc hkind).bind hr fun args ms hargs => .pure ?_
    rw [List.append_nil]
    exact hargs
  | number value =>
    refine .of_eq ?_ (number_of_current hc hkind)
    refine (fetch_emits hr hc (by rw [Token.isEnd, hkind])).bind hr fun _ ms hms => .pure ?_
    rw [Placed, hms, Token.mark, hkind, Expr.marks]
    rfl
  | _ => exact Leaves.ite (parenthesized_leaves hinner) (.fail _) r hr

theorem productions_leave (ops : OperatorTable) (depth : Nat) :
    Leaves Placed (expression ops depth) ∧
      (∀ least lhs, 0 ≤ least → Leaves (PlacedRight lhs) (climb ops depth least lhs)) ∧
      Leaves Placed (primary ops depth) := by
  induction depth with
  | zero => exact ⟨.fail _, fun _ _ _ => .fail _, .fail _⟩
  | succ depth ih =>
    obtain ⟨hexpression, hclimb, hprimary⟩ := ih
    refine ⟨?_, fun least lhs hleast => ?_, primary_leaves hexpression⟩
    · refine hprimary.bind fun lhs ms hlhs => ?_
      refine (hclimb 0 lhs (le_refl 0)).weaken fun e ms' he => ?_
      rw [Placed, he, hlhs]
    · exact .skip rounds_advances fun fuel => chain_leaves hleast hprimary hclimb fuel lhs

end Expressions

/-! ### Forms -/

theorem prototype_leaves :
    Leaves (fun p ms => ms = [p.mark] ∧ p.isAnonymous = false) prototype := by
  have hmark : Leaves (fun p ms => ms = [p.mark]) prototype := by
    intro r hr
    obtain ⟨t, hc⟩ := hr.current
    refine .of_eq ?_ (step_bind_ok (current_of_some hc))
    cases hkind : t.kind with
    | identifier name =>
      refine (fetch_emits hr hc (by rw [Token.isEnd, hkind])).bind hr fun _ ms hms => ?_
      refine .skip (require_advances _ _) fun _ => .skip rounds_advances fun fuel => ?_
      refine .skip (parameters_advances fuel []) fun params => ?_
      refine .skip (require_advances _ _) fun _ => .skip fetch_advances fun _ => .pure ?_
      rw [List.append_nil, hms, Token.mark, hkind]
      rfl
    | _ => exact .of_fail _
  intro r hr p after h
  obtain ⟨ms, hms, hp⟩ := hmark r hr p after h
  have hname := (prototype_isWord hr.inside h).1
  exact ⟨ms, hms, hp, by simpa [Prototype.isAnonymous] using hname⟩

/-- What is found at a token leaves the marks of its name and its nodes, and what has no name stands
at that token. -/
structure PlacedForm (t : Token) (found : Option Form) (ms : List Mark) : Prop where
  marks : ms = found.toList.flatMap Form.marks
  anonymous : ∀ f, found = some (.function f) → f.prototype.isAnonymous = true →
    f.prototype.location = t.location

variable {ops : OperatorTable} {depth : Nat}

theorem form_emits (hr : r.Standing) (hc : r.current = some t) :
    Emits (PlacedForm t) (form? ops depth) r := by
  have hexpression := (productions_leave ops depth).1
  have hnothing : PlacedForm t none [] := ⟨rfl, fun f hf => by cases hf⟩
  have hdefinition :
      Leaves (fun f => PlacedForm t (some (.function f))) (definition ops depth) := by
    refine .skip fetch_advances fun _ => prototype_leaves.bind fun p ms hp => ?_
    refine hexpression.bind fun body ms' hbody => .pure ⟨?_, fun f hf hnone => ?_⟩
    · rw [hp.1, hbody, List.append_nil]
      simp [Form.marks, hp.2]
    · cases hf
      rw [hp.2] at hnone
      cases hnone
  have hexternal : Leaves (fun p => PlacedForm t (some (.external p))) external := by
    refine .skip fetch_advances fun _ => prototype_leaves.weaken fun p ms hp => ?_
    refine ⟨?_, fun f hf => by cases hf⟩
    rw [hp.1]
    rfl
  have hbare : Emits (fun f => PlacedForm t (some (.function f))) (bareExpression ops depth) r := by
    refine .of_eq ?_ (step_bind_ok (current_of_some hc))
    refine (hexpression r hr).bind hr fun body ms hbody => .pure ⟨?_, fun f hf _ => ?_⟩
    · rw [hbody, List.append_nil]
      simp [Form.marks, Prototype.isAnonymous]
    · cases hf
      rfl
  refine .of_eq ?_ (step_bind_ok (start_of_some hc))
  cases t.kind with
  | eof => exact Leaves.pure hnothing r hr
  | define => exact .map (.map (hdefinition r hr))
  | external => exact .map (.map (hexternal r hr))
  | _ =>
    dsimp only
    split
    · exact Leaves.skip fetch_advances (fun _ => .pure hnothing) r hr
    · exact .map (.map hbare)

/-! ### Whole sources -/

end Parse

/-- Tokens of a source that stand one behind the other, and the form that they make if they do not
make a separator. -/
structure Stretch where
  tokens : List Token
  found : Option Form

/-- The tokens are those of the form, and its marks are among theirs, in this order. A form without
a name stands at the first of them. -/
structure Stretch.Placed (ops : OperatorTable) (s : Stretch) : Prop where
  derived : ∃ kept, TopLevel ops s.tokens kept ∧
    kept.map Token.kind = s.found.toList.flatMap Form.spelling
  marks : (s.found.toList.flatMap Form.marks).Sublist (s.tokens.map Token.mark)
  anonymous : ∀ f, s.found = some (.function f) → f.prototype.isAnonymous = true →
    ∃ t rest, s.tokens = t :: rest ∧ f.prototype.location = t.location

theorem marks_of_stretches {ops : OperatorTable} {stretches : List Stretch}
    (h : ∀ s ∈ stretches, s.Placed ops) :
    ((stretches.flatMap (·.found.toList)).flatMap Form.marks).Sublist
      ((stretches.flatMap Stretch.tokens).map Token.mark) := by
  induction stretches with
  | nil => exact .refl _
  | cons s stretches ih =>
    obtain ⟨hs, h⟩ := List.forall_mem_cons.1 h
    rw [List.flatMap_cons, List.flatMap_append, List.flatMap_cons, List.map_append]
    exact hs.marks.append (ih h)

namespace Reader

variable {r after : Reader} {ts us : List Token}

theorem Passes.unique (h : r.Passes ts after) (h' : r.Passes us after) : ts = us := by
  have hlength : ts.length = us.length := by
    have hts := h.length_ahead
    have hus := h'.length_ahead
    omega
  induction h generalizing us with
  | nil => exact (List.length_eq_zero_iff.1 hlength.symm).symm
  | @cons r after t next notes rest ts hc ha _ ih =>
    cases h' with
    | nil => cases hlength
    | cons hc' ha' h' =>
      cases hc.symm.trans hc'
      cases ha.symm.trans ha'
      rw [ih h' (Nat.succ.inj hlength)]

end Reader

namespace Parse

variable {ops : OperatorTable} {depth : Nat} {r middle : Reader} {t : Token}

theorem stretch_of_form {found : Option Form} (hr : r.Standing) (hc : r.current = some t)
    (ht : t.isEnd = false) (h : form? ops depth r = .ok found middle) :
    ∃ s : Stretch, s.found = found ∧ r.Passes s.tokens middle ∧ s.Placed ops := by
  obtain ⟨ts, kept, htop, hp, hspell⟩ := form_sound hr.inside.ends hc ht h
  obtain ⟨ms, ⟨us, hus, hms⟩, hplaced⟩ := form_emits hr hc found middle h
  -- The tokens that the grammar accounts for are those that the marks are among.
  obtain rfl := hp.unique hus
  refine ⟨⟨ts, found⟩, rfl, hp, ⟨kept, htop, hspell ?_⟩, hplaced.marks ▸ hms, ?_⟩
  · intro u hu name hkind
    exact (hr.inside.words u name (hp.holds u hu) hkind).1
  · intro f hf hnone
    obtain ⟨u, rest, rfl⟩ := List.exists_cons_of_ne_nil (topLevel_ne_nil htop)
    cases hp.current_eq.symm.trans hc
    exact ⟨t, rest, rfl, hplaced.anonymous f hf hnone⟩

theorem Row.stretches {forms : List Form} (h : Row ops depth r forms none) (hr : r.Standing) :
    ∃ (stretches : List Stretch) (after : Reader) (ending : Token),
      r.Passes (stretches.flatMap Stretch.tokens) after ∧ after.current = some ending ∧
      ending.isEnd = true ∧ stretches.flatMap (·.found.toList) = forms ∧
      ∀ s ∈ stretches, s.Placed ops := by
  generalize hstop : (none : Option Failure) = stop at h
  induction h with
  | failed => cases hstop
  | @done r t hc ht => exact ⟨[], r, t, .nil r, hc, ht, rfl, by simp⟩
  | @next r middle t found forms stop hc ht hform _ ih =>
    obtain ⟨s, rfl, hp, hs⟩ := stretch_of_form hr hc ht hform
    obtain ⟨stretches, after, ending, hrest, hending, hend, rfl, hstretches⟩ :=
      ih (hr.passes hp) hstop
    refine ⟨s :: stretches, after, ending, ?_, hending, hend, rfl,
      List.forall_mem_cons.2 ⟨hs, hstretches⟩⟩
    exact hp.append hrest

theorem stretches_of_all {file : String} {source : List Char} {forms : List Form}
    (h : (all ops depth).result (.ofSource file source) = .ok forms) :
    ∃ (stretches : List Stretch) (ending : Token),
      tokenize file source = .ok (stretches.flatMap Stretch.tokens ++ [ending]) ∧
      stretches.flatMap (·.found.toList) = forms ∧ ∀ s ∈ stretches, s.Placed ops := by
  have hinside := Reader.inside_ofSource file source
  cases wholeRow_of_all hinside h with
  | @start t first _ _ hfetch hrow =>
    obtain ⟨hfirst, _⟩ := standing_of_fetch hinside hfetch
    obtain ⟨stretches, after, ending, hp, hending, hend, hforms, hplaced⟩ := hrow.stretches hfirst
    exact ⟨stretches, ending, tokenize_of_passes hfetch hp hending hend, hforms, hplaced⟩

/-- The nodes of the forms of a source stand where the source says what they say. They stand in the
order of the source, the nodes of one form in front of those of the next, and no two at one place.
The source is made of the tokens of its forms and of separators, and where a form has no name, it
stands at the first of its tokens. -/
theorem nodes_stand_in_order {file : String} {source : List Char} {forms : List Form}
    (h : (all ops depth).result (.ofSource file source) = .ok forms) :
    (∀ m ∈ forms.flatMap Form.marks, m.StandsIn source) ∧
    (forms.flatMap Form.marks).Pairwise Mark.Before ∧
    ∃ (stretches : List Stretch) (ending : Token),
      tokenize file source = .ok (stretches.flatMap Stretch.tokens ++ [ending]) ∧
      stretches.flatMap (·.found.toList) = forms ∧ ∀ s ∈ stretches, s.Placed ops := by
  obtain ⟨stretches, ending, htokens, hforms, hplaced⟩ := stretches_of_all h
  obtain ⟨own, last, heq, _, _, hstand, hbefore⟩ := tokens_of_tokenize htokens
  obtain ⟨rfl, _⟩ := List.append_inj' heq rfl
  have hmarks := marks_of_stretches hplaced
  rw [hforms] at hmarks
  refine ⟨fun m hm => ?_, ?_, stretches, ending, htokens, hforms, hplaced⟩
  · obtain ⟨t, ht, rfl⟩ := List.mem_map.1 (hmarks.subset hm)
    obtain ⟨index, hindex⟩ := hstand t ht
    exact hindex.mark
  · have hordered : ((stretches.flatMap Stretch.tokens).map Token.mark).Pairwise Mark.Before := by
      rw [List.pairwise_map]
      exact hbefore
    exact hordered.sublist hmarks

/-- Calls, redundant parentheses, a comment, and a form behind a form. -/
theorem nodes_stand_in_order_nested :
    ∃ forms, (all .standard 9).result (.ofSource "" "def f(x)(x+y)*f(x)#c\n((a))".toList) =
        .ok forms ∧
      (∀ m ∈ forms.flatMap Form.marks, m.StandsIn "def f(x)(x+y)*f(x)#c\n((a))".toList) ∧
      (forms.flatMap Form.marks).Pairwise Mark.Before ∧
      (forms.flatMap Form.marks).map (·.location.map Location.offset) =
        [some 4, some 9, some 10, some 11, some 13, some 14, some 16, some 23] := by
  have hoffsets : ((all .standard 9).result (.ofSource "" "def f(x)(x+y)*f(x)#c\n((a))".toList)).map
      (fun forms => (forms.flatMap Form.marks).map (·.location.map Location.offset)) =
      .ok [some 4, some 9, some 10, some 11, some 13, some 14, some 16, some 23] := by cbv
  cases hresult : (all .standard 9).result
      (.ofSource "" "def f(x)(x+y)*f(x)#c\n((a))".toList) with
  | error failure =>
    rw [hresult] at hoffsets
    cases hoffsets
  | ok forms =>
    obtain ⟨hstand, hbefore, _⟩ := nodes_stand_in_order hresult
    rw [hresult] at hoffsets
    exact ⟨forms, rfl, hstand, hbefore, Except.ok.inj hoffsets⟩

end Parse
end ScalarLang
