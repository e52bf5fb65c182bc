import Curly.Proofs.Grammar.Faults
import Curly.Proofs.Grammar.Spans
import Curly.Proofs.Run.Blame
import Curly.Session.Basic

/-!
# Submissions are safe

Whatever is submitted to a session that began empty, the reply is a value of the language or a
diagnostic for the author of the text, who finds its place in the text. There is one exception: if the
bound of loops has more digits than are written, the message of a loop that runs into it cannot be made,
and the evaluator fails.

## Main definitions

* `Session.Reachable`: the states of a session that began empty.
* `Reply.Orderly`: a reply to the author of a text.
* `Session.Safe`: a text fares in one of the ways that the language knows.

## Main statements

* `Session.submissions_safe`: lines and scripts are safe.
* `Session.internal_failure_of_bound`: the exception.
-/

namespace Curly

/-- The headlines of what is the author's. -/
def Diagnostic.labels : List String :=
  ["LexError", "ParseError", "RuntimeError", "TypeError", "UndefinedVariable", "UnsupportedOperation",
    "LoopLimitExceeded"]

/-- The reply is a value of the language, or a diagnostic that is the author's and has its place in the
text. Only a run whose loops are not bounded may have no end, and only the bound of loops, if it cannot be
written, makes the evaluator itself fail. -/
inductive Reply.Orderly (limits : Limits) (source : String) : Reply → Prop where
  | value {v} (hkind : v.kind ∈ [ValueKind.null, .bool, .number, .string]) :
      Orderly limits source (.value v)
  | failure {d} (hlabel : d.label ∈ Diagnostic.labels) (hsource : d.source = source)
      (hstart : d.span.start ≤ d.span.stop) (hstop : d.span.stop ≤ source.length) :
      Orderly limits source (.failure d)
  | unwritable {limit d} (hlimit : limits.loop = some limit)
      (hunwritable : Numeral.isWritable limit = false) (hlabel : d.label = Session.internalLabel)
      (hsource : d.source = source) (hstart : d.span.start ≤ d.span.stop)
      (hstop : d.span.stop ≤ source.length) : Orderly limits source (.failure d)
  | unfinished (h : limits.loop = none) : Orderly limits source .unfinished

namespace Session

/-- The states of a session that began without bindings, under limits that may change between
submissions. -/
inductive Reachable : Session → Prop where
  | empty {limits tracing} : Reachable { limits := limits, tracing := tracing }
  | line {s} (h : Reachable s) (source : String) : Reachable (s.line source).session
  | script {s} (h : Reachable s) (source : String) : Reachable (s.script source).session
  | limited {s} (h : Reachable s) (limits : Limits) : Reachable { s with limits := limits }

/-- How a text fares that is submitted as a unit: whether it is answered, cannot be read or fails in its
run, it does so in one of the ways that the language knows. -/
structure Safe (unit : TextUnit) (submit : Session → String → Turn) (s : Session) (source : String) :
    Prop where
  reply : (submit s source).reply.Orderly s.limits source
  reading : ∀ fault c, Tree.read unit source.toList = .error fault c → fault.OfText source.length
  running : ∀ T c fault r, Tree.read unit source.toList = .ok T c →
    T.run s.limits s.start = .error fault r → fault.OfText source.length s.limits

variable {s : Session} {unit : TextUnit} {source : String}

theorem label_mem {k : Category} (h : k ≠ .general) : k.label ∈ Diagnostic.labels := by
  cases k with
  | general => exact absurd rfl h
  | _ => decide

/-- Faults of texts are shown to the author. -/
theorem readDiagnostic_orderly {limits : Limits} {fault : ReadFault}
    (h : fault.OfText source.length) :
    (Reply.failure (readDiagnostic source fault)).Orderly limits source := by
  have shown : ∀ {p : Problem}, fault.toProblem? source.length = some p → p.category ≠ .general →
      p.span.stop ≤ source.length →
        (Reply.failure (readDiagnostic source fault)).Orderly limits source := by
    intro p hp hcategory hstop
    rw [readDiagnostic, hp]
    exact .failure (label_mem hcategory) rfl p.span.start_le hstop
  cases h with
  | lexical h => exact shown rfl nofun h
  | syntactic h => exact shown rfl nofun h
  | tooDeep => exact shown rfl nofun (Nat.le_of_eq (Nat.zero_add _))

/-- So are faults of runs. What goes wrong in the evaluator itself is shown at the current node. -/
theorem runReply_orderly {limits : Limits} {current : Option Tree} {fault : RunFault}
    (h : fault.OfText source.length limits)
    (hcurrent : ∀ limit, fault = .unwritable limit →
      ∃ t, current = some t ∧ t.span.stop ≤ source.length) :
    (runReply source current fault).Orderly limits source := by
  have shown : ∀ {e : RuntimeError}, e.span.stop ≤ source.length →
      (Reply.failure (e.toProblem.toDiagnostic source)).Orderly limits source := by
    intro e hstop
    refine .failure (label_mem ?_) rfl e.span.start_le hstop
    show e.cause.category ≠ .general
    cases e.cause <;> nofun
  cases fault with
  | error e => exact shown h.2
  | tooDeep => exact shown (Nat.le_of_eq (Nat.zero_add _))
  | unfinished => exact .unfinished h
  | unwritable limit =>
    obtain ⟨t, rfl, hstop⟩ := hcurrent limit rfl
    exact .unwritable h.1 h.2 rfl rfl t.span.start_le hstop
  | notABlock => exact h.elim
  | noArithmetic _ => exact h.elim

theorem value_orderly {limits : Limits} {v : Value} (h : v.Native) :
    (Reply.value v).Orderly limits source := by
  have kind : ∀ k : ValueKind, k ≠ .foreign → k ∈ [ValueKind.null, .bool, .number, .string] := by
    intro k hk
    cases k with
    | foreign => exact absurd rfl hk
    | _ => decide
  exact .value (kind v.kind h)

/-- What a run leaves is native if its scopes are. -/
theorem afterRun_native {r : Run} (h : r.scopes.Native) :
    Bindings.Native (s.afterRun r).bindings := by
  show Bindings.Native (r.scopes.headD [])
  cases hscopes : r.scopes with
  | nil => exact List.forall_mem_nil _
  | cons b outer => exact h b (hscopes ▸ List.mem_cons_self ..)

theorem submit_unread {fault : ReadFault} {c : Cursor}
    (h : Tree.read unit source.toList = .error fault c) :
    (s.submit unit source).reply = .failure (readDiagnostic source fault) ∧
      (s.submit unit source).session.bindings = s.bindings := by
  unfold submit
  rw [h]
  exact ⟨rfl, rfl⟩

theorem submit_value {T : Tree} {c : Cursor} {v : Value} {r : Run}
    (h : Tree.read unit source.toList = .ok T c) (hrun : T.run s.limits s.start = .ok v r) :
    (s.submit unit source).reply = .value v ∧ (s.submit unit source).session = s.afterRun r := by
  unfold submit
  rw [h]
  dsimp only
  rw [hrun]
  exact ⟨rfl, rfl⟩

theorem submit_fault {T : Tree} {c : Cursor} {fault : RunFault} {r : Run}
    (h : Tree.read unit source.toList = .ok T c) (hrun : T.run s.limits s.start = .error fault r) :
    (s.submit unit source).reply = runReply source r.current fault ∧
      (s.submit unit source).session = s.afterRun r := by
  unfold submit
  rw [h]
  dsimp only
  rw [hrun]
  exact ⟨rfl, rfl⟩

/-- If the bound of a loop cannot be written, the current node is one of the text. -/
theorem current_stop_le {T : Tree} {c : Cursor} {limit : Int} {r : Run}
    (h : Tree.read unit source.toList = .ok T c)
    (hrun : T.run s.limits s.start = .error (.unwritable limit) r) :
    ∃ t, r.current = some t ∧ t.span.stop ≤ source.length := by
  rcases Tree.ends_blame (.inr hrun) with hdeep | ⟨_, _, _, _, _, _, _, _, _, t, -, ht, hcurrent⟩
  · cases hdeep
  · exact ⟨t, hcurrent, String.length_toList ▸ Tree.read_node_stop_le h ht⟩

/-- A text is read and run safely in native bindings, and leaves such bindings. -/
theorem submit_safe (hs : Bindings.Native s.bindings) (hunit : unit ≠ .single) (source : String) :
    Safe unit (submit unit) s source ∧ Bindings.Native (s.submit unit source).session.bindings := by
  have reading : ∀ fault c, Tree.read unit source.toList = .error fault c →
      fault.OfText source.length := fun fault c h => String.length_toList ▸ Tree.read_error_cases h
  have hstart : s.start.scopes.Native := List.forall_mem_singleton.2 hs
  have running : ∀ T c fault r, Tree.read unit source.toList = .ok T c →
      T.run s.limits s.start = .error fault r →
        fault.OfText source.length s.limits ∧ r.scopes.Native := fun T c fault r h hrun =>
    String.length_toList ▸ (Tree.read_run_native h hunit s.limits).of_error hstart hrun
  have safe : (s.submit unit source).reply.Orderly s.limits source →
      Safe unit (submit unit) s source := fun hreply =>
    ⟨hreply, reading, fun T c fault r h hrun => (running T c fault r h hrun).1⟩
  cases hread : Tree.read unit source.toList with
  | error fault c =>
    obtain ⟨hreply, hbindings⟩ := submit_unread (s := s) hread
    exact ⟨safe (hreply ▸ readDiagnostic_orderly (reading fault c hread)), hbindings ▸ hs⟩
  | ok T c =>
    cases hrun : T.run s.limits s.start with
    | ok v r =>
      obtain ⟨hreply, hsession⟩ := submit_value hread hrun
      obtain ⟨hv, hr⟩ := (Tree.read_run_native hread hunit s.limits).of_ok hstart hrun
      exact ⟨safe (hreply ▸ value_orderly hv), hsession ▸ afterRun_native hr⟩
    | error fault r =>
      obtain ⟨hreply, hsession⟩ := submit_fault hread hrun
      obtain ⟨hfault, hr⟩ := running T c fault r hread hrun
      exact ⟨safe (hreply ▸ runReply_orderly hfault fun limit hlimit =>
        current_stop_le hread (hlimit ▸ hrun)), hsession ▸ afterRun_native hr⟩

theorem Reachable.native (h : s.Reachable) : Bindings.Native s.bindings := by
  induction h with
  | empty => exact List.forall_mem_nil _
  | line _ source ih => exact (submit_safe ih (by decide) source).2
  | script _ source ih => exact (submit_safe ih (by decide) source).2
  | limited _ _ ih => exact ih

/-- **No failure of the host escapes**, but for one. Whatever was submitted before and however loops are
bounded, a line and a script are answered by a null, a truth value, a number or a string, or by one
diagnostic whose span lies within the text; only where loops are not bounded a run may have no end. The
diagnostic is the author's, unless loops have a bound that cannot be written. No reading runs out of tokens
or comes upon an operator that is missing in a table, and no run comes upon a node without a meaning or an
operator without its arithmetic. -/
theorem submissions_safe (h : s.Reachable) (source : String) :
    Safe .statements line s source ∧ Safe .program script s source :=
  ⟨(submit_safe h.native (by decide) source).1, (submit_safe h.native (by decide) source).1⟩

/-- A line that changes a name of the line before it and then adds it to a string. -/
theorem submissions_safe_after_line :
    (line {} "var x = 1").session.Reachable ∧
      Safe .statements line (line {} "var x = 1").session "x = 2; x + true" ∧
      Safe .program script (line {} "var x = 1").session "x = 2; x + true" := by
  have h : (line {} "var x = 1").session.Reachable := .line .empty _
  exact ⟨h, submissions_safe h _⟩

/-- Under a bound that cannot be written, a loop makes the evaluator itself fail. -/
theorem internal_failure_of_bound :
    let s : Session := { limits := ⟨some (-Nat.pow 10 Numeral.maxDigits), 0⟩ }
    s.Reachable ∧ ∃ d, (s.line "loop \x7b \x7d").reply = .failure d ∧ d.label = internalLabel ∧
      d.label ∉ Diagnostic.labels := by
  intro s
  have hlabel : (match (s.line "loop \x7b \x7d").reply with
    | .failure d => some d.label
    | _ => none) = some internalLabel := by decide +kernel
  refine ⟨.empty, ?_⟩
  split at hlabel
  · next d hreply =>
    have hother : internalLabel ∉ Diagnostic.labels := by decide
    exact ⟨d, hreply, Option.some.inj hlabel, Option.some.inj hlabel ▸ hother⟩
  · cases hlabel

end Session

end Curly
