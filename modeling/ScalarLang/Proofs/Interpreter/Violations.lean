import ScalarLang.Proofs.Engine.Agreement

/-!
# Which definitions are refused, and why

A definition is accepted if its prototype may be defined and every node of its body is in scope.
Lowering stops at the first node that is not, so of several faults the first one in the order of the
checks is reported: a call is checked before its arguments, an operator after its operands.
-/
namespace ScalarLang

/-! ### Nodes -/

namespace Expr

mutual

/-- The nodes of an expression in the order in which they are checked. -/
def nodes : Expr → List Expr
  | number value location => [number value location]
  | var name location => [var name location]
  | binary op lhs rhs location => nodes lhs ++ (nodes rhs ++ [binary op lhs rhs location])
  | call callee args location => call callee args location :: nodesAll args

def nodesAll : List Expr → List Expr
  | [] => []
  | arg :: rest => nodes arg ++ nodesAll rest

end

mutual

/-- The number of expressions on the longest way down, each inside the one before it. -/
def height : Expr → Nat
  | number _ _ => 1
  | var _ _ => 1
  | binary _ lhs rhs _ => max (height lhs) (height rhs) + 1
  | call _ args _ => heightAll args + 1

def heightAll : List Expr → Nat
  | [] => 0
  | arg :: rest => max (height arg) (heightAll rest)

end

theorem nodesAll_eq_flatMap (args : List Expr) : nodesAll args = args.flatMap nodes := by
  induction args with
  | nil => rfl
  | cons arg rest ih => rw [nodesAll, ih, List.flatMap_cons]

theorem height_le_heightAll {args : List Expr} {arg : Expr} (h : arg ∈ args) :
    arg.height ≤ heightAll args := by
  induction args with
  | nil => cases h
  | cons first rest ih =>
    rw [heightAll]
    rcases List.mem_cons.1 h with rfl | hrest
    · omega
    · have hle := ih hrest
      omega

/-- What a node itself must satisfy: `params` are the variables in scope, and `known` says how many
parameters a function takes. -/
def InScope (known : String → Option Nat) (params : List String) : Expr → Prop
  | number _ _ => True
  | var name _ => name ∈ params
  | binary op _ _ _ => op ∈ ["+", "-", "*", "<"]
  | call callee args _ => known callee = some args.length

instance (known : String → Option Nat) (params : List String) (node : Expr) :
    Decidable (node.InScope known params) :=
  match node with
  | number _ _ => inferInstanceAs (Decidable True)
  | var name _ => inferInstanceAs (Decidable (name ∈ params))
  | binary op _ _ _ => inferInstanceAs (Decidable (op ∈ ["+", "-", "*", "<"]))
  | call callee args _ => inferInstanceAs (Decidable (known callee = some args.length))

/-- A node that is not in scope, with the code and the message of the report. -/
inductive Breaks (known : String → Option Nat) (params : List String) :
    Expr → Option String → String → Prop
  | unknownVariable {name : String} {location : Option Location} (h : name ∉ params) :
      Breaks known params (.var name location) "B001" s!"unknown variable name '{name}'"
  | unknownFunction {callee : String} {args : List Expr} {location : Option Location}
      (h : known callee = none) :
      Breaks known params (.call callee args location) "B002"
        s!"unknown function referenced '{callee}'"
  | argumentCount {callee : String} {args : List Expr} {location : Option Location} {arity : Nat}
      (h : known callee = some arity) (hne : arity ≠ args.length) :
      Breaks known params (.call callee args location) "B003"
        (s!"incorrect number of arguments passed to '{callee}': " ++
          s!"expected {arity}, found {args.length}")
  | unknownOperator {op : String} {lhs rhs : Expr} {location : Option Location}
      (h : op ∉ ["+", "-", "*", "<"]) :
      Breaks known params (.binary op lhs rhs location) "B006" s!"invalid binary operator '{op}'"

variable {known : String → Option Nat} {params : List String} {nodes done more : List Expr}
  {node : Expr} {d : Diagnostic}

theorem Breaks.not_inScope {code : Option String} {message : String}
    (h : Breaks known params node code message) : ¬ node.InScope known params := by
  cases h with
  | unknownVariable h => exact h
  | unknownFunction h =>
    rw [InScope, h]
    simp
  | argumentCount h hne =>
    rw [InScope, h]
    exact fun heq => hne (Option.some.inj heq)
  | unknownOperator h => exact h

/-- The diagnostic reports the first of the nodes that is not in scope. -/
def Reports (known : String → Option Nat) (params : List String) (nodes : List Expr)
    (d : Diagnostic) : Prop :=
  ∃ before node after, nodes = before ++ node :: after ∧
    (∀ earlier ∈ before, earlier.InScope known params) ∧
    node.Breaks known params d.code d.message ∧ d.location = node.location

theorem Breaks.reports (h : node.Breaks known params d.code d.message)
    (hlocation : d.location = node.location) : Reports known params (node :: nodes) d :=
  ⟨[], node, nodes, rfl, List.forall_mem_nil _, h, hlocation⟩

theorem Reports.before (h : Reports known params nodes d) (more : List Expr) :
    Reports known params (nodes ++ more) d := by
  obtain ⟨before, node, after, rfl, hbefore, hnode⟩ := h
  exact ⟨before, node, after ++ more, by simp, hbefore, hnode⟩

theorem Reports.after (hdone : ∀ node ∈ done, node.InScope known params)
    (h : Reports known params nodes d) : Reports known params (done ++ nodes) d := by
  obtain ⟨before, node, after, rfl, hbefore, hnode⟩ := h
  refine ⟨done ++ before, node, after, by simp, fun earlier hearlier => ?_, hnode⟩
  rcases List.mem_append.1 hearlier with hmem | hmem
  · exact hdone earlier hmem
  · exact hbefore earlier hmem

theorem Reports.exists_node (h : Reports known params nodes d) :
    ∃ node ∈ nodes, ¬ node.InScope known params := by
  obtain ⟨before, node, after, rfl, _, hnode, _⟩ := h
  exact ⟨node, by simp, hnode.not_inScope⟩

end Expr

/-! ### Bodies -/

/-- How many parameters the functions take that are declared. -/
def Signatures.arity? (signatures : Signatures) (callee : String) : Option Nat :=
  (signatures.get? callee).map Prototype.arity

theorem Signatures.arity?_of_resolve {signatures : Signatures} {callee : String} {count : Nat}
    {location : Option Location} {p : Prototype}
    (h : signatures.resolve callee count location = .ok p) :
    signatures.arity? callee = some count := by
  obtain ⟨hget, harity⟩ := resolve_eq_ok h
  rw [arity?, hget, Option.map_some, harity]

theorem Operation.ofSymbol?_eq_none {op : String} :
    ofSymbol? op = none ↔ op ∉ ["+", "-", "*", "<"] := by
  unfold ofSymbol?
  split <;> simp_all

theorem Rejection.diagnostic_location (r : Rejection) : r.diagnostic.location = r.location := by
  obtain ⟨violation, location⟩ := r
  cases violation <;> rfl

namespace Signatures

theorem breaks_of_resolve {signatures : Signatures} {params : List String} {callee : String}
    {args : List Expr} {location : Option Location} {r : Rejection}
    (h : signatures.resolve callee args.length location = .error r) :
    (Expr.call callee args location).Breaks signatures.arity? params r.diagnostic.code
        r.diagnostic.message ∧ r.location = location := by
  unfold resolve at h
  split at h
  · next hnone =>
    cases h
    exact ⟨.unknownFunction (by rw [arity?, hnone]; rfl), rfl⟩
  · next p hp =>
    split at h
    · cases h
    · next harity =>
      cases h
      exact ⟨.argumentCount (by rw [arity?, hp]; rfl) harity, rfl⟩

theorem resolve_ne_nesting {signatures : Signatures} {callee : String} {count : Nat}
    {location : Option Location} {r : Rejection}
    (h : signatures.resolve callee count location = .error r) : r.violation ≠ .nesting := by
  unfold resolve at h
  split at h
  · cases h
    simp
  · split at h
    · cases h
    · cases h
      simp

end Signatures

namespace Code

variable {scope : Scope} {depth : Nat} {e : Expr}

theorem inScope_of_lower {code : Code} (h : lower scope depth e = .ok code) :
    ∀ node ∈ e.nodes, node.InScope scope.signatures.arity? scope.params := by
  induction depth generalizing e code with
  | zero => simp [lower] at h
  | succ depth ih =>
    cases e with
    | number value location => simp [Expr.nodes, Expr.InScope]
    | var name location =>
      simp only [lower] at h
      split at h
      · next index hindex =>
        have hmem : name ∈ scope.params := by
          by_contra hnot
          rw [lastIndex?_eq_none.2 hnot] at hindex
          cases hindex
        simpa [Expr.nodes, Expr.InScope] using hmem
      · cases h
    | binary op lhs rhs location =>
      simp only [lower] at h
      obtain ⟨l, hl, h⟩ := bind_eq_ok.1 h
      obtain ⟨r, hr, h⟩ := bind_eq_ok.1 h
      split at h
      · next operation hop =>
        have hknown : op ∈ ["+", "-", "*", "<"] := by
          by_contra hnot
          rw [Operation.ofSymbol?_eq_none.2 hnot] at hop
          cases hop
        intro node hnode
        rw [Expr.nodes, List.mem_append, List.mem_append, List.mem_singleton] at hnode
        rcases hnode with hleft | hright | rfl
        · exact ih hl node hleft
        · exact ih hr node hright
        · exact hknown
      · cases h
    | call callee args location =>
      simp only [lower] at h
      obtain ⟨p, hp, h⟩ := bind_eq_ok.1 h
      obtain ⟨codes, hcodes, _⟩ := bind_eq_ok.1 h
      intro node hnode
      rw [Expr.nodes, Expr.nodesAll_eq_flatMap, List.mem_cons, List.mem_flatMap] at hnode
      rcases hnode with rfl | ⟨arg, harg, hnode⟩
      · exact Signatures.arity?_of_resolve hp
      · obtain ⟨own, hown⟩ := exists_of_mapM hcodes harg
        exact ih hown node hnode

/-- Lowering that fails within its budget reports the first node that is not in scope. The induction
is on the budget; what is lowered before the failure is in scope. -/
theorem reports_of_lower {r : Rejection} (h : lower scope depth e = .error r) :
    r.violation = .nesting ∨
      Expr.Reports scope.signatures.arity? scope.params e.nodes r.diagnostic := by
  induction depth generalizing e r with
  | zero =>
    rw [lower] at h
    cases h
    exact Or.inl rfl
  | succ depth ih =>
    cases e with
    | number value location => cases h
    | var name location =>
      simp only [lower] at h
      split at h
      · cases h
      · next hindex =>
        cases h
        refine Or.inr (Expr.Breaks.reports ?_ rfl)
        exact .unknownVariable (lastIndex?_eq_none.1 hindex)
    | binary op lhs rhs location =>
      simp only [lower] at h
      rw [Expr.nodes]
      rcases bind_eq_error h with hl | ⟨l, hl, h⟩
      · exact (ih hl).imp_right fun hreports => hreports.before _
      · have hleft := inScope_of_lower hl
        rcases bind_eq_error h with hr | ⟨r', hr, h⟩
        · exact (ih hr).imp_right fun hreports => (hreports.before _).after hleft
        · have hright := inScope_of_lower hr
          split at h
          · cases h
          · next hop =>
            cases h
            refine Or.inr (Expr.Reports.after hleft (Expr.Reports.after hright ?_))
            exact Expr.Breaks.reports (.unknownOperator (Operation.ofSymbol?_eq_none.1 hop)) rfl
    | call callee args location =>
      simp only [lower] at h
      rw [Expr.nodes, Expr.nodesAll_eq_flatMap]
      rcases bind_eq_error h with hp | ⟨p, hp, h⟩
      · obtain ⟨hbreaks, hlocation⟩ := Signatures.breaks_of_resolve hp
        exact Or.inr (hbreaks.reports (r.diagnostic_location.trans hlocation))
      · rcases bind_eq_error h with hargs | ⟨codes, _, h⟩
        · obtain ⟨before, arg, after, done, rfl, hdone, harg⟩ := exists_split_of_mapM_error hargs
          have hbefore : ∀ node ∈ .call callee (before ++ arg :: after) location ::
              before.flatMap Expr.nodes,
              node.InScope scope.signatures.arity? scope.params := by
            intro node hnode
            rcases List.mem_cons.1 hnode with rfl | hnode
            · exact Signatures.arity?_of_resolve hp
            · obtain ⟨first, hfirst, hnode⟩ := List.mem_flatMap.1 hnode
              obtain ⟨code, hcode⟩ := exists_of_mapM hdone hfirst
              exact inScope_of_lower hcode node hnode
          rw [List.flatMap_append, List.flatMap_cons, ← List.cons_append]
          exact (ih harg).imp_right fun hreports => (hreports.before _).after hbefore
        · cases h

/-- A budget of as many levels as there are expressions inside one another is enough. -/
theorem lower_ne_nesting {r : Rejection} (h : lower scope depth e = .error r)
    (hheight : e.height ≤ depth) : r.violation ≠ .nesting := by
  induction depth generalizing e r with
  | zero => cases e <;> simp [Expr.height] at hheight
  | succ depth ih =>
    cases e with
    | number value location => cases h
    | var name location =>
      simp only [lower] at h
      split at h
      · cases h
      · cases h
        simp
    | binary op lhs rhs location =>
      rw [Expr.height] at hheight
      simp only [lower] at h
      rcases bind_eq_error h with hl | ⟨l, hl, h⟩
      · exact ih hl (by omega)
      · rcases bind_eq_error h with hr | ⟨r', hr, h⟩
        · exact ih hr (by omega)
        · split at h
          · cases h
          · cases h
            simp
    | call callee args location =>
      rw [Expr.height] at hheight
      simp only [lower] at h
      rcases bind_eq_error h with hp | ⟨p, hp, h⟩
      · exact Signatures.resolve_ne_nesting hp
      · rcases bind_eq_error h with hargs | ⟨codes, _, h⟩
        · obtain ⟨arg, hmem, harg⟩ := mem_of_mapM_error hargs
          have hle := Expr.height_le_heightAll hmem
          exact ih harg (by omega)
        · cases h

end Code

/-! ### Prototypes -/

namespace Store

variable {β : Type} {s : Store β} {p : Prototype}

/-- A function may be defined: it has no name, or it has no body yet and is not declared with
another number of parameters. -/
def Admits (s : Store β) (p : Prototype) : Prop :=
  p.name = "" ∨ s.isDefined p.name = false ∧
    ∀ known, s.signatures.get? p.name = some known → known.arity = p.arity

/-- A function may not be defined, with the code and the message of the report. -/
inductive Refuses (s : Store β) (p : Prototype) : Option String → String → Prop
  | redefinition (hname : p.name ≠ "") (hdefined : s.isDefined p.name = true) :
      Refuses s p "B004" s!"redefinition of function '{p.name}'"
  | conflict {known : Prototype} (hname : p.name ≠ "") (hnew : s.isDefined p.name = false)
      (hknown : s.signatures.get? p.name = some known) (harity : known.arity ≠ p.arity) :
      Refuses s p "B005"
        (s!"conflicting declaration of '{p.name}': previously declared with " ++
          s!"{known.arity} parameter(s), now {p.arity}")

/-- How many parameters the functions take that the body of a function can call: what is declared,
and the function itself if it has a name. -/
def callable (s : Store β) (p : Prototype) (callee : String) : Option Nat :=
  if p.name ≠ "" ∧ callee = p.name then some p.arity else s.signatures.arity? callee

theorem Refuses.not_admits {code : Option String} {message : String}
    (h : s.Refuses p code message) : ¬ s.Admits p := by
  rintro (hname | ⟨hnew, hsame⟩)
  · cases h with
    | redefinition hne _ => exact hne hname
    | conflict hne _ _ _ => exact hne hname
  · cases h with
    | redefinition _ hdefined =>
      rw [hnew] at hdefined
      cases hdefined
    | conflict _ _ hknown harity => exact harity (hsame _ hknown)

theorem enroll_cases (s : Store β) (p : Prototype) :
    (s.Admits p ∧ s.enroll p = .ok (s.record p)) ∨
      ∃ r, s.enroll p = .error r ∧ s.Refuses p r.diagnostic.code r.diagnostic.message ∧
        r.violation ≠ .nesting ∧ r.location = p.location := by
  unfold enroll
  split
  · next hanonymous =>
    refine Or.inl ⟨Or.inl ((isAnonymous_iff p).1 hanonymous), ?_⟩
    rw [record_of_anonymous hanonymous]
  · next hnamed =>
    have hname : p.name ≠ "" := fun hname => hnamed ((isAnonymous_iff p).2 hname)
    split
    · next hdefined => exact Or.inr ⟨_, rfl, .redefinition hname hdefined, by simp, rfl⟩
    · next hdefined =>
      have hnew : s.isDefined p.name = false := by simpa using hdefined
      cases hknown : s.signatures.get? p.name with
      | none =>
        refine Or.inl ⟨Or.inr ⟨hnew, fun other hother => ?_⟩, rfl⟩
        rw [hknown] at hother
        cases hother
      | some known =>
        dsimp only
        split
        · next harity =>
          refine Or.inl ⟨Or.inr ⟨hnew, fun other hother => ?_⟩, rfl⟩
          rw [hknown] at hother
          cases hother
          exact harity
        · next harity => exact Or.inr ⟨_, rfl, .conflict hname hnew hknown harity, by simp, rfl⟩

theorem refuses_of_enroll {r : Rejection} (h : s.enroll p = .error r) :
    s.Refuses p r.diagnostic.code r.diagnostic.message ∧ r.violation ≠ .nesting ∧
      r.location = p.location := by
  rcases s.enroll_cases p with ⟨_, hok⟩ | ⟨other, herror, hother⟩
  · rw [h] at hok
    cases hok
  · rw [h] at herror
    cases herror
    exact hother

theorem admits_of_enroll {enrolled : Store β} (h : s.enroll p = .ok enrolled) : s.Admits p := by
  rcases s.enroll_cases p with ⟨hadmits, _⟩ | ⟨r, herror, _⟩
  · exact hadmits
  · rw [h] at herror
    cases herror

theorem arity?_record (s : Store β) (p : Prototype) :
    (s.record p).signatures.arity? = s.callable p := by
  funext callee
  unfold callable
  by_cases hname : p.name = ""
  · rw [if_neg (fun h => h.1 hname), record_of_anonymous ((isAnonymous_iff p).2 hname)]
  · have hnamed : p.isAnonymous = false := by simpa [Prototype.isAnonymous] using hname
    by_cases hcallee : callee = p.name
    · rw [if_pos ⟨hname, hcallee⟩, Signatures.arity?, hcallee, get?_record_self hnamed]
      rfl
    · rw [if_neg (fun h => hcallee h.2), record_of_named hnamed]
      unfold Signatures.arity?
      rw [Ledger.get?_put_of_ne _ _ hcallee]

end Store

/-! ### Definitions -/

theorem Answer.tooDeep_rejected {η : Type} {r : Rejection} :
    (.rejected r : Answer η).TooDeep ↔ r.violation = .nesting := by
  constructor
  · rintro ⟨location, h⟩
    cases h
    rfl
  · obtain ⟨violation, location⟩ := r
    rintro rfl
    exact ⟨location, rfl⟩

namespace Interpreter

variable {natives : Ledger String Native} {limit : Nat} {s : Store Code} {f : Function}

/-- All that a definition can lead to: its prototype is refused, its body is, or it is accepted. -/
theorem perform_define_cases (hs : s.Closed) :
    let answer := ((engine natives limit).perform s (.define f)).1
    (∃ r, answer = .rejected r ∧ s.enroll f.prototype = .error r) ∨
    (∃ r, answer = .rejected r ∧ s.enroll f.prototype = .ok (s.record f.prototype) ∧
      lower limit (s.record f.prototype).signatures f = .error r) ∨
    ∃ l body, answer = .lowered l ∧ s.enroll f.prototype = .ok (s.record f.prototype) ∧
      lower limit (s.record f.prototype).signatures f = .ok body := by
  intro answer
  have hanswer : answer = ((engine natives limit).perform s (.define f)).1 := rfl
  have hengine : (engine natives limit).define f =
    Lowered.map .defined <$> Store.define (lower limit) f := rfl
  have hdefine := Store.define_eq (lower limit) f hs
  simp only [Engine.perform, hengine] at hanswer
  cases henroll : s.enroll f.prototype with
  | error r =>
    rw [henroll] at hdefine
    rw [step_map_error hdefine] at hanswer
    exact Or.inl ⟨r, hanswer, rfl⟩
  | ok enrolled =>
    obtain rfl := Store.enroll_eq_record henroll
    rw [henroll] at hdefine
    cases hlower : lower limit (s.record f.prototype).signatures f with
    | error r =>
      simp only [hlower] at hdefine
      rw [step_map_error hdefine] at hanswer
      exact Or.inr (Or.inl ⟨r, hanswer, rfl, rfl⟩)
    | ok body =>
      simp only [hlower] at hdefine
      rw [step_map_ok hdefine] at hanswer
      exact Or.inr (Or.inr ⟨_, body, hanswer, rfl, rfl⟩)

/-- After any requests a definition is accepted if and only if its prototype may be defined and
every node of its body is in scope. Otherwise the prototype is reported, at its place, or the first
node of the body that is not in scope, at the place of the node. Only a body that is higher than the
depth budget can be refused for its nesting instead. -/
theorem definition_is_accepted_iff_in_scope (natives : Ledger String Native) (limit : Nat)
    (history : List (Request (Handle Code))) (f : Function) :
    let s := ((engine natives limit).serve {} history).2
    let answer := ((engine natives limit).perform s (.define f)).1
    let known := s.callable f.prototype
    (f.body.height ≤ limit → ¬ answer.TooDeep) ∧
    (¬ answer.TooDeep →
      ((∃ l, answer = .lowered l) ↔ s.Admits f.prototype ∧
        ∀ node ∈ f.body.nodes, node.InScope known f.prototype.params) ∧
      ((∃ l, answer = .lowered l) ∨ ∃ r, answer = .rejected r ∧
        (s.Refuses f.prototype r.diagnostic.code r.diagnostic.message ∧
            r.diagnostic.location = f.prototype.location ∨
          s.Admits f.prototype ∧
            Expr.Reports known f.prototype.params f.body.nodes r.diagnostic))) := by
  intro s answer known
  have hs : s.Closed := (onStore natives limit).atomic.keeps_serve Store.closed_empty history
  have hknown : (s.record f.prototype).signatures.arity? = known := s.arity?_record f.prototype
  have hcases := @perform_define_cases natives limit s f hs
  rcases hcases with
    ⟨r, hanswer, henroll⟩ | ⟨r, hanswer, henroll, hlower⟩ | ⟨l, body, hanswer, henroll, hlower⟩
  · obtain ⟨hrefuses, hnesting, hlocation⟩ := Store.refuses_of_enroll henroll
    change answer = _ at hanswer
    rw [hanswer, Answer.tooDeep_rejected]
    refine ⟨fun _ => hnesting, fun _ => ⟨⟨by simp, ?_⟩, Or.inr ⟨r, rfl, Or.inl ⟨hrefuses, ?_⟩⟩⟩⟩
    · rintro ⟨hadmits, _⟩
      exact absurd hadmits hrefuses.not_admits
    · exact r.diagnostic_location.trans hlocation
  · have hadmits := Store.admits_of_enroll henroll
    have hreports := Code.reports_of_lower hlower
    change answer = _ at hanswer
    rw [hanswer, Answer.tooDeep_rejected]
    refine ⟨Code.lower_ne_nesting hlower, fun hnesting => ?_⟩
    have hfirst := hreports.resolve_left hnesting
    rw [hknown] at hfirst
    refine ⟨⟨by simp, ?_⟩, Or.inr ⟨r, rfl, Or.inr ⟨hadmits, hfirst⟩⟩⟩
    rintro ⟨_, hbody⟩
    obtain ⟨node, hnode, hnot⟩ := hfirst.exists_node
    exact absurd (hbody node hnode) hnot
  · have hadmits := Store.admits_of_enroll henroll
    have hbody := Code.inScope_of_lower hlower
    change answer = _ at hanswer
    rw [hknown] at hbody
    rw [hanswer]
    have hshallow : ¬ (Answer.lowered l).TooDeep := by
      rintro ⟨location, h⟩
      cases h
    refine ⟨fun _ => hshallow, fun _ => ⟨⟨fun _ => ⟨hadmits, hbody⟩, fun _ => ⟨l, rfl⟩⟩, ?_⟩⟩
    exact Or.inl ⟨l, rfl⟩

/-- A body with three faults. The call is reported for its arguments, one of which is unknown, and
not the variable behind it or the operator above it. -/
theorem definition_is_accepted_iff_in_scope_several_faults :
    let history : List (Request (Handle Code)) := [.declare ⟨"g", ["a"], none⟩]
    let s := ((engine [] 9).serve {} history).2
    let call : Expr := .call "g" [.var "x" none, .var "y" none] (some ⟨"", 1, 10, 9⟩)
    let f : Function := ⟨⟨"f", ["x"], none⟩, .binary "/" call (.var "z" none) none⟩
    let answer := ((engine [] 9).perform s (.define f)).1
    f.body.height ≤ 9 ∧ ¬ answer.TooDeep ∧
      ∃ r, answer = .rejected r ∧ r.diagnostic.code = some "B003" ∧
        r.diagnostic.location = call.location ∧
        Expr.Reports (s.callable f.prototype) ["x"] f.body.nodes r.diagnostic := by
  intro history s call f answer
  have hmain := definition_is_accepted_iff_in_scope [] 9 history f
  have hheight : f.body.height ≤ 9 := by decide
  have hdeep : ¬ answer.TooDeep := hmain.1 hheight
  have hrejected : answer = .rejected ⟨.argumentCount "g" 1 2, call.location⟩ := rfl
  refine ⟨hheight, hdeep, _, hrejected, rfl, rfl, ?_⟩
  rcases (hmain.2 hdeep).2 with ⟨l, hl⟩ | ⟨r, hr, hreports⟩
  · rw [show answer = .lowered l from hl] at hrejected
    cases hrejected
  · obtain rfl : r = ⟨.argumentCount "g" 1 2, call.location⟩ := by
      rw [show answer = .rejected r from hr] at hrejected
      exact Answer.rejected.inj hrejected
    have hadmits : s.Admits f.prototype := by
      refine Or.inr ⟨rfl, fun known hknown => ?_⟩
      have hnone : s.signatures.get? f.prototype.name = none := rfl
      rw [hnone] at hknown
      cases hknown
    rcases hreports with ⟨hrefuses, _⟩ | ⟨_, hreports⟩
    · exact absurd hadmits hrefuses.not_admits
    · exact hreports

end Interpreter
end ScalarLang
