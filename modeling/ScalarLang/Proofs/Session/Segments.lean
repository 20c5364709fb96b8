import ScalarLang.Proofs.Session.Steps

/-!
# Every item is read once

A session takes the items of a source in segments, each behind the one before it: a semicolon, the
tokens of a form with the token that is skipped if it is rejected, the tokens of a form that cannot
be read with the item that stands in its way, or a malformed literal by itself. Nothing is read
twice and nothing is lost, so a session ends after no more steps than there are items, and counts no
more than that.
-/
namespace ScalarLang

/-! ### Items that are not yet read -/

/-- The items of a source without the end. -/
def proper (items : List Lexeme) : List Item :=
  (items.map Lexeme.item).filter fun item => !item.isEnd

theorem proper_append (items more : List Lexeme) :
    proper (items ++ more) = proper items ++ proper more := by
  rw [proper, List.map_append, List.filter_append]
  rfl

theorem proper_malformed (notes : List Note) (fault : Malformed) (rest : List Lexeme) :
    proper (⟨notes, .malformed fault⟩ :: rest) = .malformed fault :: proper rest := rfl

theorem proper_faults {front : List Lexeme} {faults : List Malformed}
    (h : front.map Lexeme.item = faults.map .malformed) : proper front = faults.map .malformed := by
  rw [proper, h, List.filter_eq_self]
  intro item hitem
  obtain ⟨fault, _, rfl⟩ := List.mem_map.1 hitem
  rfl

namespace Reader

variable {r after : Reader} {t : Token} {ts : List Token}

/-- The token that the reader stands on, unless that is the end. -/
def standing (r : Reader) : Option Token := r.current.filter fun t => !t.isEnd

/-- The items that the reader has not passed, without the end. -/
def unread (r : Reader) : List Item := r.standing.toList.map .token ++ proper r.ahead

theorem standing_of_open (hc : r.current = some t) (ht : t.isEnd = false) :
    r.standing = some t := by
  simp [standing, hc, ht]

theorem unread_of_open (hc : r.current = some t) (ht : t.isEnd = false) :
    r.unread = .token t :: proper r.ahead := by
  rw [unread, standing_of_open hc ht]
  rfl

theorem Inside.isEnd_of_nil (h : r.Inside) (ha : r.ahead = []) : r.ending.isEnd = true := by
  have hc := h.current_of_nil ha
  have hends := h.ends
  unfold Ends at hends
  rw [hc, ha] at hends
  by_contra hopen
  simp [hopen, EndsOnce] at hends

theorem Inside.isEnd_of_cons (h : r.Inside) {lexeme : Lexeme} {rest : List Lexeme}
    (hc : r.current = some t) (ha : r.ahead = lexeme :: rest) : t.isEnd = false := by
  have hends := h.ends
  unfold Ends at hends
  rw [hc, ha] at hends
  by_contra hend
  simp [hend] at hends

theorem Inside.ahead_of_end (h : r.Inside) (hc : r.current = some t) (ht : t.isEnd = true) :
    r.ahead = [] := by
  have hends := h.ends
  unfold Ends at hends
  simpa [hc, ht] using hends

theorem Inside.unread_of_end (h : r.Inside) (hc : r.current = some t) (ht : t.isEnd = true) :
    r.unread = [] := by
  simp [unread, standing, hc, ht, h.ahead_of_end hc ht, proper]

/-- The reader moves on to the next token: what was ahead is unread. -/
theorem unread_to_token (notes : List Note) (rest : List Lexeme) :
    unread { r with current := some t, ahead := rest } = proper (⟨notes, .token t⟩ :: rest) := by
  cases ht : t.isEnd with
  | true => simp [unread, standing, proper, Item.isEnd, ht]
  | false =>
    rw [unread_of_open rfl ht]
    simp [proper, Item.isEnd, ht]

theorem Inside.past_faults {front more : List Lexeme} {faults : List Malformed} {notes : List Note}
    (h : r.Inside) (hfront : front.map Lexeme.item = faults.map .malformed)
    (ha : r.ahead = front ++ ⟨notes, .token t⟩ :: more) :
    Inside { r with current := some t, ahead := more } := by
  induction front generalizing r faults with
  | nil => exact h.to_token ha
  | cons lexeme front ih =>
    obtain ⟨own, item⟩ := lexeme
    cases faults with
    | nil => cases hfront
    | cons fault faults =>
      simp only [List.map_cons, List.cons.injEq] at hfront
      obtain ⟨rfl, hfront⟩ := hfront
      rw [List.cons_append] at ha
      have hpast := h.past_malformed ha
      exact ih (r := { r with ahead := front ++ ⟨notes, .token t⟩ :: more }) hpast hfront rfl

theorem Inside.unread_passes (h : r.Inside) (hp : r.Passes ts after) :
    r.unread = ts.map .token ++ after.unread := by
  induction hp with
  | nil => rfl
  | @cons r after t next notes rest ts hc ha _ ih =>
    have hopen := h.isEnd_of_cons hc ha
    have hnext := ih (h.to_token ha)
    rw [unread_to_token notes] at hnext
    rw [unread_of_open hc hopen, ha, hnext]
    rfl

end Reader

/-! ### Segments -/

/-- A run of items that a session takes at once. -/
inductive Segment where
  | separator (t : Token)
  | form (tokens : List Token) (form : Form) (skipped : Option Token)
  | failure (tokens : List Token) (failure : Failure) (skipped : Option Item)
  | literal (fault : Malformed)

def Segment.items : Segment → List Item
  | separator t => [.token t]
  | form tokens _ skipped => tokens.map .token ++ skipped.toList.map .token
  | failure tokens _ skipped => tokens.map .token ++ skipped.toList
  | literal fault => [.malformed fault]

/-- The item that stands in the way of a form: the malformed literal or the unexpected token, unless
that is the end. -/
def Failure.obstacle : Failure → Option Item
  | malformed fault => some (.malformed fault)
  | unexpected _ found => if found.isEnd then none else some (.token found)
  | _ => none

/-- Whether a form is rejected, when it is lowered or when it is executed. -/
def Verdict.isRejected : Verdict → Bool
  | rejected _ => true
  | _ => false

theorem Reader.Stops.unread {r after : Reader} {t : Token} {ts : List Token} {failure : Failure}
    (h : r.Stops ts failure after) (hr : r.Inside) (hc : r.current = some t)
    (ht : t.isEnd = false) :
    after.Inside ∧
      r.unread = (Segment.failure ts failure failure.obstacle).items ++ proper after.ahead ∧
      (Segment.failure ts failure failure.obstacle).items ≠ [] := by
  cases h with
  | @token _ expected found _ hp hfound =>
    refine ⟨hr.passes hp, ?_, ?_⟩
    · rw [hr.unread_passes hp, Reader.unread, Segment.items, List.append_assoc]
      cases hend : found.isEnd with
      | true => simp [Reader.standing, Failure.obstacle, hfound, hend]
      | false => simp [Reader.standing_of_open hfound hend, Failure.obstacle, hend]
    · -- A form that fails at the end has passed the token that it starts with.
      intro hempty
      obtain ⟨hnone, hobstacle⟩ := List.append_eq_nil_iff.1 hempty
      obtain rfl := List.map_eq_nil_iff.1 hnone
      cases hp
      cases hc.symm.trans hfound
      simp [Failure.obstacle, ht] at hobstacle
  | @literal ts middle shown notes fault rest hp hshown ha =>
    have hmiddle := hr.passes hp
    have hopen := hmiddle.isEnd_of_cons hshown ha
    refine ⟨hmiddle.past_malformed ha, ?_, by simp [Segment.items]⟩
    rw [hr.unread_passes hp, Reader.unread_of_open hshown hopen, ha, proper_malformed]
    simp [Segment.items, Failure.obstacle]

namespace Session

variable {σ η : Type}

/-- The segment that a step takes at the token where the session stands. A form is followed by the
token that is skipped because the engine rejected it, if tokens are skipped at all; a form that
cannot be read is followed by what stands in its way. -/
inductive Takes (engine : Engine σ η) (ops : OperatorTable) (depth : Nat) (skip : Bool)
    (s : Session σ) : Segment → Prop
  | separator {t : Token} (hc : s.reader.current = some t) (ht : t.isSymbol ";" = true) :
      Takes engine ops depth skip s (.separator t)
  | form {t : Token} {ts : List Token} {form : Form} {after : Reader}
      (hc : s.reader.current = some t) (ht : t.isSymbol ";" = false)
      (h : (FormKind.ofToken t).read ops depth s.reader = .ok form after)
      (hp : s.reader.Passes ts after) :
      Takes engine ops depth skip s (.form ts form
        (if skip && (engine.verdict (.ofToken t) form s.store).1.isRejected then after.standing
          else none))
  | failure {t : Token} {ts : List Token} {failure : Failure} {after : Reader}
      (hc : s.reader.current = some t) (ht : t.isSymbol ";" = false)
      (h : (FormKind.ofToken t).read ops depth s.reader = .error failure after)
      (hstops : s.reader.Stops ts failure after) :
      Takes engine ops depth skip s (.failure ts failure failure.obstacle)

/-- A session goes on from a state to the end of the input, or to a fault. Each step takes a segment
and then malformed literals, which it meets on the way to the next token. -/
inductive Covers (engine : Engine σ η) (ops : OperatorTable) (depth : Nat) (skip : Bool) :
    Session σ → List (List Segment) → Session σ → Option Trap → Prop
  | done {s : Session σ} (h : s.reader.token.isEnd = true) :
      Covers engine ops depth skip s [] s none
  | cut {s : Session σ} {segment : Segment} {faults : List Malformed} {trap : Trap}
      (h : s.reader.token.isEnd = false) (ht : Takes engine ops depth skip s segment)
      (hf : (s.step engine ops depth skip).fault = some trap) :
      Covers engine ops depth skip s [segment :: faults.map .literal]
        (s.step engine ops depth skip).session (some trap)
  | next {s final : Session σ} {segment : Segment} {faults : List Malformed}
      {rest : List (List Segment)} {fault : Option Trap} (h : s.reader.token.isEnd = false)
      (ht : Takes engine ops depth skip s segment)
      (hf : (s.step engine ops depth skip).fault = none)
      (hrest :
        Covers engine ops depth skip (s.step engine ops depth skip).session rest final fault) :
      Covers engine ops depth skip s ((segment :: faults.map .literal) :: rest) final fault

/-! ### One step -/

section Step

variable {engine : Engine σ η} {ops : OperatorTable} {depth : Nat} {skip : Bool} {s : Session σ}
  {t : Token} {kind : FormKind}

/-- A session has moved on: malformed literals that it has counted lie in between. -/
structure MovedOn (s : Session σ) (faults : List Malformed) (after : Session σ) : Prop where
  standing : after.reader.Standing
  items : proper s.reader.ahead = faults.map .malformed ++ after.reader.unread
  total : after.stats.total = s.stats.total + faults.length

theorem advance_movedOn (h : s.reader.Inside) :
    ∃ faults, MovedOn s faults (s.advance : List (Event η) × Session σ).2 := by
  unfold advance
  cases ha : s.reader.ahead with
  | nil =>
    have hend := h.isEnd_of_nil ha
    have hc := h.current_of_nil ha
    have hreader : { s.reader with current := some s.reader.ending, ahead := [] } = s.reader := by
      rw [← hc, ← ha]
    refine ⟨[], ?_, ?_, rfl⟩
    · simp only [advanceOver, hreader]
      exact ⟨h, _, hc⟩
    · simp only [advanceOver, hreader, ha]
      rw [h.unread_of_end hc hend]
      rfl
  | cons lexeme rest =>
    have hends : EndsOnce s.reader.ahead := by
      refine h.endsOnce fun t ht => h.isEnd_of_cons ht ha
    rw [ha] at hends
    obtain ⟨front, faults, notes, t, more, heq, hfaults, hafter⟩ :=
      advanceOver_eq (η := η) hends s
    refine ⟨faults, ?_, ?_, ?_⟩
    · rw [hafter]
      exact ⟨h.past_faults hfaults (ha.trans heq), t, rfl⟩
    · rw [hafter, ha, heq, proper_append, proper_faults hfaults, Reader.unread_to_token notes]
    · rw [hafter, Stats.total_reportAll]

/-- Where a session over a source starts, and how many rounds suffice from there on. -/
theorem start_standing (η : Type) (store : σ) (file : String) (source : List Char) :
    let start : List (Event η) × Session σ := advance { reader := .ofSource file source, store }
    start.2.reader.Standing ∧
      start.2.reader.unread.length < (lexemes file source).length + 1 := by
  intro start
  obtain ⟨faults, hstanding, hitems, _⟩ := advance_movedOn (η := η)
    (s := { reader := .ofSource file source, store }) (Reader.inside_ofSource file source)
  have hle : (proper (lexemes file source)).length ≤ (lexemes file source).length :=
    (List.length_filter_le _ _).trans (List.length_map _).le
  have hlength := congrArg List.length hitems
  rw [List.length_append] at hlength
  change (proper (lexemes file source)).length = _ + start.2.reader.unread.length at hlength
  exact ⟨hstanding, by omega⟩

theorem recover_movedOn (h : s.reader.Inside) (report : Report) :
    ∃ faults : List Malformed,
      (s.recover true report : List (Event η) × Session σ).2.reader.Standing ∧
      proper s.reader.ahead = faults.map .malformed ++
        (s.recover true report : List (Event η) × Session σ).2.reader.unread ∧
      (s.recover true report : List (Event η) × Session σ).2.stats.total =
        s.stats.total + 1 + faults.length := by
  obtain ⟨faults, hmoved⟩ := advance_movedOn (η := η)
    (s := { s with stats := s.stats.report report }) h
  exact ⟨faults, hmoved.standing, hmoved.items, hmoved.total⟩

theorem total_accept_le (stats : Stats) (kind : FormKind) :
    (stats.accept kind).total ≤ stats.total + 1 := by
  cases kind with
  | expression => exact Nat.le_succ _
  | definition =>
    simp only [Stats.total, Stats.accept]
    omega
  | external =>
    simp only [Stats.total, Stats.accept]
    omega

/-- What one step does to the items and to the counters. -/
structure Consumes (s : Session σ) (segment : Segment) (faults : List Malformed)
    (after : Session σ) : Prop where
  standing : after.reader.Standing
  items : s.reader.unread = segment.items ++ (faults.map .malformed ++ after.reader.unread)
  nonempty : segment.items ≠ []
  total : after.stats.total ≤ s.stats.total + 1 + faults.length

theorem conclude_consumes (skip : Bool) (kind : FormKind) (hr : s.reader.Standing)
    (verdict : Verdict) :
    ∃ faults : List Malformed,
      let after := (conclude skip kind s verdict : Turn σ η).session
      after.reader.Standing ∧
      s.reader.unread =
        (if skip && verdict.isRejected then s.reader.standing else none).toList.map .token ++
          (faults.map .malformed ++ after.reader.unread) ∧
      after.stats.total ≤ s.stats.total + 1 + faults.length := by
  cases verdict with
  | accepted => exact ⟨[], hr, by simp [conclude, Verdict.isRejected], total_accept_le s.stats kind⟩
  | value x =>
    exact ⟨[], hr, by simp [conclude, Verdict.isRejected], (Stats.total_evaluate s.stats x).le⟩
  | fault trap => exact ⟨[], hr, by simp [conclude, Verdict.isRejected], Nat.le_succ _⟩
  | rejected d =>
    cases skip with
    | false => exact ⟨[], hr, rfl, le_refl _⟩
    | true =>
      obtain ⟨faults, hstanding, hitems, htotal⟩ :=
        recover_movedOn (η := η) hr.inside (.engine d)
      refine ⟨faults, hstanding, ?_, htotal.le⟩
      rw [Reader.unread, hitems]
      rfl

theorem read_advances (kind : FormKind) : Parse.Advances (kind.read ops depth) := by
  cases kind with
  | definition => exact (Parse.definition_advances ops depth).map
  | external => exact Parse.external_advances.map
  | expression => exact (Parse.bareExpression_advances ops depth).map

/-- The tokens of a form that is read. -/
theorem read_takes {form : Form} {after : Reader} (hr : s.reader.Standing)
    (hc : s.reader.current = some t) (hend : t.isEnd = false) (ht : t.isSymbol ";" = false)
    (h : (FormKind.ofToken t).read ops depth s.reader = .ok form after) :
    ∃ ts, s.reader.Passes ts after ∧ ts ≠ [] := by
  have hform : Parse.form? ops depth s.reader = .ok (some form) after := by
    rw [Parse.form_kind_eq hc hend ht, step_map_ok h]
  obtain ⟨ts, kept, htop, hp, _⟩ := Parse.form_sound hr.inside.ends hc hend hform
  exact ⟨ts, hp, Parse.topLevel_ne_nil htop⟩

theorem form_consumes {form : Form} {after : Reader} (hr : s.reader.Standing)
    (hc : s.reader.current = some t) (hend : t.isEnd = false) (ht : t.isSymbol ";" = false)
    (h : (FormKind.ofToken t).read ops depth s.reader = .ok form after) :
    ∃ segment faults, Takes engine ops depth skip s segment ∧
      Consumes s segment faults (s.step engine ops depth skip).session := by
  obtain ⟨ts, hp, hne⟩ := read_takes hr hc hend ht h
  obtain ⟨faults, hstanding, hitems, htotal⟩ := conclude_consumes (η := η)
    (s := { s with reader := after, store := (engine.verdict (.ofToken t) form s.store).2 })
    skip (.ofToken t) (hr.passes hp) (engine.verdict (.ofToken t) form s.store).1
  refine ⟨_, faults, .form hc ht h hp, ?_⟩
  rw [step_of_form hc ht, handle_of_ok h, accept_eq]
  refine ⟨hstanding, ?_, ?_, htotal⟩
  · rw [hr.inside.unread_passes hp, hitems, Segment.items, List.append_assoc]
  · simp [Segment.items, hne]

theorem failure_consumes {failure : Failure} {after : Reader} (hr : s.reader.Standing)
    (hc : s.reader.current = some t) (hend : t.isEnd = false) (ht : t.isSymbol ";" = false)
    (h : (FormKind.ofToken t).read ops depth s.reader = .error failure after) :
    ∃ segment faults, Takes engine ops depth skip s segment ∧
      Consumes s segment faults (s.step engine ops depth skip).session := by
  obtain ⟨ts, hstops⟩ := (read_advances _ _ hr).error failure after h
  have htakes : Takes engine ops depth skip s (.failure ts failure failure.obstacle) :=
    .failure hc ht h hstops
  obtain ⟨hinside, hitems, hne⟩ := hstops.unread hr.inside hc hend
  obtain ⟨faults, hstanding, hmoved, htotal⟩ :=
    recover_movedOn (η := η) (s := { s with reader := after }) hinside (.reading failure)
  refine ⟨_, faults, htakes, ?_⟩
  rw [step_of_form hc ht, handle_of_error h]
  exact ⟨hstanding, by rw [hitems, hmoved], hne, htotal.le⟩

theorem step_consumes (engine : Engine σ η) (ops : OperatorTable) (depth : Nat) (skip : Bool)
    (hr : s.reader.Standing) (hopen : s.reader.token.isEnd = false) :
    ∃ segment faults, Takes engine ops depth skip s segment ∧
      Consumes s segment faults (s.step engine ops depth skip).session := by
  obtain ⟨t, hc⟩ := hr.current
  rw [token_of_some hc] at hopen
  cases ht : t.isSymbol ";" with
  | true =>
    obtain ⟨faults, hmoved⟩ := advance_movedOn (η := η) hr.inside
    refine ⟨.separator t, faults, .separator hc ht, ?_⟩
    rw [step_of_separator hc ht]
    refine ⟨hmoved.standing, ?_, by simp [Segment.items], ?_⟩
    · rw [Reader.unread_of_open hc hopen, hmoved.items]
      rfl
    · rw [hmoved.total]
      omega
  | false =>
    cases h : (FormKind.ofToken t).read ops depth s.reader with
    | ok form after => exact form_consumes hr hc hopen ht h
    | error failure after => exact failure_consumes hr hc hopen ht h

/-- Each step takes an item at least. -/
theorem step_less (engine : Engine σ η) (ops : OperatorTable) (depth : Nat) (skip : Bool)
    (hr : s.reader.Standing) (hopen : s.reader.token.isEnd = false) :
    (s.step engine ops depth skip).session.reader.Standing ∧
      (s.step engine ops depth skip).session.reader.unread.length < s.reader.unread.length := by
  obtain ⟨segment, faults, _, hstep⟩ := step_consumes engine ops depth skip hr hopen
  have hpos : 0 < segment.items.length := List.length_pos_of_ne_nil hstep.nonempty
  have hlength := congrArg List.length hstep.items
  simp only [List.length_append, List.length_map] at hlength
  exact ⟨hstep.standing, by omega⟩

end Step

/-! ### Whole sessions -/

section Run

variable {engine : Engine σ η} {ops : OperatorTable} {depth : Nat} {skip : Bool} {s : Session σ}

/-- The items that steps of a session take. -/
def taken (steps : List (List Segment)) : List Item := steps.flatten.flatMap Segment.items

theorem flatMap_literals (faults : List Malformed) :
    (faults.map Segment.literal).flatMap Segment.items = faults.map .malformed := by
  rw [List.flatMap_map, List.map_eq_flatMap]
  rfl

theorem taken_cons (segment : Segment) (faults : List Malformed) (rest : List (List Segment)) :
    taken ((segment :: faults.map .literal) :: rest) =
      segment.items ++ (faults.map .malformed ++ taken rest) := by
  simp [taken, flatMap_literals]

/-- Each step takes an item at least, so the rounds suffice. -/
theorem runFrom_covers (engine : Engine σ η) (ops : OperatorTable) (depth : Nat) (skip : Bool)
    {fuel : Nat} (hr : s.reader.Standing) (hfuel : s.reader.unread.length < fuel) :
    let turn := runFrom engine ops depth skip fuel s
    ∃ steps, Covers engine ops depth skip s steps turn.session turn.fault ∧
      turn.session.reader.Standing ∧
      s.reader.unread = taken steps ++ turn.session.reader.unread ∧
      steps.length ≤ (taken steps).length ∧
      turn.session.stats.total ≤ s.stats.total + (taken steps).length := by
  induction fuel generalizing s with
  | zero => exact absurd hfuel (Nat.not_lt_zero _)
  | succ fuel ih =>
    cases hend : s.reader.token.isEnd with
    | true =>
      rw [runFrom_of_end hend]
      exact ⟨[], .done hend, hr, rfl, le_refl _, le_refl _⟩
    | false =>
      obtain ⟨segment, faults, htakes, hstep⟩ :=
        step_consumes engine ops depth skip hr hend
      have hpos : 0 < segment.items.length := List.length_pos_of_ne_nil hstep.nonempty
      have htaken := hstep.total
      cases hf : (step engine ops depth skip s).fault with
      | some trap =>
        have hone : taken [segment :: faults.map .literal] =
            segment.items ++ faults.map .malformed := by
          rw [taken_cons]
          exact congrArg _ (List.append_nil _)
        rw [runFrom_of_fault hend hf]
        refine ⟨[segment :: faults.map .literal], hf ▸ .cut hend htakes hf, hstep.standing,
          ?_, ?_, ?_⟩
        · rw [hstep.items, hone, List.append_assoc]
        · rw [hone, List.length_append, List.length_singleton]
          omega
        · rw [hone, List.length_append, List.length_map]
          omega
      | none =>
        have hlength := congrArg List.length hstep.items
        simp only [List.length_append, List.length_map] at hlength
        obtain ⟨steps, hcovers, hstanding, hitems, hsteps, htotal⟩ :=
          ih hstep.standing (by omega)
        rw [runFrom_of_step hend hf]
        dsimp only
        refine ⟨(segment :: faults.map .literal) :: steps, .next hend htakes hf hcovers,
          hstanding, ?_, ?_, ?_⟩
        · rw [hstep.items, hitems, taken_cons]
          simp only [List.append_assoc]
        · rw [taken_cons, List.length_append, List.length_append, List.length_cons]
          omega
        · rw [taken_cons, List.length_append, List.length_append, List.length_map]
          omega

theorem Covers.isEnd {steps : List (List Segment)} {final : Session σ} {fault : Option Trap}
    (h : Covers engine ops depth skip s steps final fault) (hfault : fault = none) :
    final.reader.token.isEnd = true := by
  induction h with
  | done h => exact h
  | cut => cases hfault
  | next _ _ _ _ ih => exact ih hfault

end Run

end Session

/-- A session ends at the end of the input or with a fault, whatever the source, the operators, the
engine and the settings are, and takes the items of the source in order, each in one segment: first
the malformed literals in front of the first token, then what its steps take. What is left is what a
fault has cut off. So there are no more steps than items, and no more is counted. -/
theorem session_reads_every_item_once (engine : Engine σ η) (ops : OperatorTable) (depth : Nat)
    (skip : Bool) (store : σ) (file : String) (source : List Char) :
    let items := proper (lexemes file source)
    let start : Session σ := { reader := .ofSource file source, store }
    let turn := Session.run engine ops depth skip store (lexemes file source)
    ∃ (faults : List Malformed) (steps : List (List Segment)),
      Session.Covers engine ops.freeze depth skip
        (start.advance : List (Event η) × Session σ).2 steps turn.session turn.fault ∧
      items = (faults.map Segment.literal ++ steps.flatten).flatMap Segment.items ++
        turn.session.reader.unread ∧
      (turn.fault = none →
        turn.session.reader.token.isEnd = true ∧ turn.session.reader.unread = []) ∧
      steps.length ≤ items.length ∧
      turn.session.stats.definitions + turn.session.stats.externals +
        turn.session.stats.evaluations + turn.session.stats.errors ≤ items.length := by
  intro items start turn
  obtain ⟨faults, hstanding, hitems, htotal⟩ :=
    Session.advance_movedOn (η := η) (s := start) (Reader.inside_ofSource file source)
  have hitems : items = faults.map .malformed ++
      (start.advance : List (Event η) × Session σ).2.reader.unread := hitems
  have hfuel : (start.advance : List (Event η) × Session σ).2.reader.unread.length <
      (lexemes file source).length + 1 := by
    have hle : items.length ≤ (lexemes file source).length :=
      (List.length_filter_le _ _).trans (List.length_map _).le
    rw [hitems, List.length_append] at hle
    omega
  obtain ⟨steps, hcovers, hend, hunread, hsteps, hcount⟩ := Session.runFrom_covers
    engine ops.freeze depth skip hstanding hfuel
  have hlength : items.length = faults.length +
      ((Session.taken steps).length + turn.session.reader.unread.length) := by
    rw [hitems, hunread, List.length_append, List.length_append, List.length_map]
    rfl
  refine ⟨faults, steps, hcovers, ?_, fun hfault => ?_, ?_, ?_⟩
  · rw [hitems, hunread, List.flatMap_append, Session.flatMap_literals, List.append_assoc]
    rfl
  · have hover : turn.session.reader.token.isEnd = true := hcovers.isEnd hfault
    obtain ⟨t, hc⟩ := hend.current
    have ht : t.isEnd = true := (congrArg Token.isEnd (Session.token_of_some hc)).symm.trans hover
    exact ⟨hover, hend.inside.unread_of_end hc ht⟩
  · omega
  · have hstart : start.stats.total = 0 := rfl
    change turn.session.stats.total ≤ _
    have hsum : turn.session.stats.total ≤ _ := hcount
    omega

end ScalarLang
