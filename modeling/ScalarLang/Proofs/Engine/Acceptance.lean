import ScalarLang.Proofs.IR.Verified

/-!
# The same forms are accepted

On forms as they are read the two engines agree, as long as the runtime that gets the generated code
takes what is well formed: then verification rejects nothing that lowering has accepted.
-/
namespace ScalarLang

/-- Forms as they are read, given one after the other to the two engines: unless a depth budget is
exhausted, each form is lowered by both or rejected by both alike, and after each form both have the
same signatures and bodies under the same names. The runtime of the code generator has to take what
is well formed. -/
theorem engines_accept_the_same_forms (natives : Ledger String Native) {runtime : IR.Runtime}
    (haccepts : runtime.AcceptsWellFormed) (n m : Nat)
    {forms : List Form} (hforms : ∀ form ∈ forms, form.Read)
    (hinterpreter : ∀ answer ∈
      ((Interpreter.engine natives n).serve {} (forms.map .ofForm)).1, ¬ answer.TooDeep)
    (hgenerator : ∀ answer ∈ ((IR.engine m runtime).serve {} (forms.map .ofForm)).1,
      ¬ answer.TooDeep)
    {before after : List Form} {form : Form} (hsplit : forms = before ++ form :: after) :
    let s := ((Interpreter.engine natives n).serve {} (before.map .ofForm)).2
    let t := ((IR.engine m runtime).serve {} (before.map .ofForm)).2
    let done := (Interpreter.engine natives n).perform s (.ofForm form)
    let other := (IR.engine m runtime).perform t (.ofForm form)
    done.1.Alike other.1 ∧ done.2.signatures = other.2.signatures ∧
      done.2.definitions.keys = other.2.definitions.keys := by
  intro s t done other
  have hbefore : ∀ form ∈ before, form.Read :=
    fun form hform => hforms form (by rw [hsplit]; exact List.mem_append_left _ hform)
  have hform : form.Read := hforms form (by rw [hsplit]; simp)
  have hregular : ∀ form ∈ before, form.prototype.Regular :=
    fun form hread => (hbefore form hread).regular
  have hfirst := Interpreter.onStore natives n
  have hsecond := IR.standard_onStore m
  have hs : s.Closed := hfirst.atomic.keeps_serve Store.closed_empty _
  have ht : t.Closed := (IR.onStore runtime m).atomic.keeps_serve Store.closed_empty _
  have hwords : IR.Worded t.signatures := Engine.serve_worded (IR.onStore runtime m)
    IR.worded_empty Store.closed_empty (Request.read_of_forms hbefore)
  have hlower : ∀ signatures f, Prototype.Regular f.prototype →
      Agree (Interpreter.lower n signatures f) (IR.lower m signatures f) :=
    fun signatures f hf => function_agrees n m hf
  simp only [hsplit, List.map_append, List.map_cons, Engine.serve_append, Engine.serve_cons,
    List.mem_append, List.mem_cons] at hinterpreter hgenerator
  have hother : other = (IR.engine m).perform t (.ofForm form) :=
    IR.perform_form_eq haccepts m hwords ht hform
  have halike : s.Alike t := by
    have hserved := IR.serve_forms_eq haccepts m IR.worded_empty Store.closed_empty hbefore
    rw [hserved] at hgenerator
    simp only [t, hserved]
    exact Engine.serve_alike hfirst hsecond hlower .empty Store.closed_empty Store.closed_empty
      hregular (fun answer ha => hinterpreter answer (Or.inl ha))
      (fun answer ha => hgenerator answer (Or.inl ha))
  have hopen : ¬ other.1.TooDeep := hgenerator _ (Or.inr (Or.inl rfl))
  rw [hother] at hopen ⊢
  rcases Engine.perform_alike hfirst hsecond hlower halike hs ht hform.regular with
    hd | hd | ⟨ha, hafter⟩
  · exact absurd hd (hinterpreter _ (Or.inr (Or.inl rfl)))
  · exact absurd hd hopen
  · refine ⟨ha, hafter.signatures, ?_⟩
    rw [← Store.keys_functions, ← Store.keys_functions, hafter.functions]

set_option maxRecDepth 20000 in
theorem late_definition_answers :
    (match (Parse.all .standard 9).result
        (.ofSource "" "extern f(x) def g(a) f(b) def g(a) f(a)".toList) with
      | .ok [first, second, third] =>
        let s := ((Interpreter.engine [] 9).serve {} ([first, second].map .ofForm)).2
        ((((Interpreter.engine [] 9).serve {} ([first, second, third].map .ofForm)).1.all
            fun answer => !answer.isTooDeep) &&
          (((IR.engine 9).serve {} ([first, second, third].map .ofForm)).1.all
            fun answer => !answer.isTooDeep),
          s.definitions.keys,
          ((Interpreter.engine [] 9).perform s (.ofForm third)).2.definitions.keys)
      | _ => (false, [], [])) = (true, [], ["g"]) := by cbv

/-- The first definition of `g` is rejected because of its body, which leaves no trace, and the
second is accepted. -/
theorem engines_accept_the_same_forms_after_rejection :
    ∃ first second third,
      (Parse.all .standard 9).result
        (.ofSource "" "extern f(x) def g(a) f(b) def g(a) f(a)".toList) =
        .ok [first, second, third] ∧
      let s := ((Interpreter.engine [] 9).serve {} ([first, second].map .ofForm)).2
      let t := ((IR.engine 9).serve {} ([first, second].map .ofForm)).2
      let done := (Interpreter.engine [] 9).perform s (.ofForm third)
      let other := (IR.engine 9).perform t (.ofForm third)
      s.definitions.keys = [] ∧ done.2.definitions.keys = ["g"] ∧ done.1.Alike other.1 ∧
        done.2.signatures = other.2.signatures ∧
        done.2.definitions.keys = other.2.definitions.keys := by
  have hanswers := late_definition_answers
  split at hanswers
  · next first second third hforms =>
    simp only [Prod.mk.injEq, Bool.and_eq_true] at hanswers
    obtain ⟨⟨hinterpreter, hgenerator⟩, hbefore, hafter⟩ := hanswers
    have hmain := engines_accept_the_same_forms [] IR.Runtime.standard_accepts 9 9
      (Parse.read_of_all hforms) (Answer.not_tooDeep_of_all hinterpreter)
      (Answer.not_tooDeep_of_all hgenerator)
      (show [first, second, third] = [first, second] ++ third :: [] from rfl)
    exact ⟨first, second, third, hforms, hbefore, hafter, hmain⟩
  · cases hanswers

end ScalarLang
