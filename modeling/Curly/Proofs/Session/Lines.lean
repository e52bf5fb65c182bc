import Curly.Proofs.Grammar.Lines
import Curly.Proofs.Grammar.Roles
import Curly.Proofs.Run.Sequence
import Curly.Session.Basic

/-!
# Submissions that are split into lines

It makes no difference whether two texts are submitted one after the other or as lines of one text.

## Main definitions

* `Reply.Alike`: replies that differ in their places only.
* `Session.Seamless`: two texts fare as one text like they do one after the other.

## Main statements

* `Session.lines_seamless`: all texts that can be read fare so.
-/

namespace Curly

open Run Evaluation

/-- The replies say the same, about places related by `ρ`. Nesting that is too deep is blamed on a text
as a whole. -/
inductive Reply.Alike (ρ : Span → Span → Prop) : Reply → Reply → Prop where
  | value (v) : Alike ρ (.value v) (.value v)
  | failure {d d'} (hlabel : d'.label = d.label) (hmessage : d'.message = d.message)
      (hspan : d.message ≠ RuntimeCause.nestedTooDeeply.message → ρ d.span d'.span) :
      Alike ρ (.failure d) (.failure d')
  | unfinished : Alike ρ .unfinished .unfinished

/-- The text is read as a unit. -/
def TextUnit.Accepts (unit : TextUnit) (source : String) : Prop :=
  ∃ T c, Tree.read unit source.toList = .ok T c

namespace Session

/-- The reply to the statements of a text, which have the given span. -/
def replyTo (source : String) (span : Span) : EStateM.Result RunFault Run Value → Reply
  | .ok v _ => .value v
  | .error .tooDeep r => runReply source r.current (.error ⟨.nestedTooDeeply, span⟩)
  | .error fault r => runReply source r.current fault

/-- The first text as one line and the second as the next one fare like they do one after the other. If
the first one fails, the second one is not run. -/
structure Seamless (unit : TextUnit) (submit : Session → String → Turn) (s : Session)
    (first second : String) : Prop where
  accepts : unit.Accepts (first ++ "\n" ++ second)
  succeeds : ∀ v, (submit s first).reply = .value v →
    (submit s (first ++ "\n" ++ second)).session.bindings =
        (submit (submit s first).session second).session.bindings ∧
      (submit (submit s first).session second).reply.Alike (Span.Shifted (first.length + 1))
        (submit s (first ++ "\n" ++ second)).reply
  fails : (∀ v, (submit s first).reply ≠ .value v) →
    (submit s (first ++ "\n" ++ second)).session.bindings = (submit s first).session.bindings ∧
      (submit s first).reply.Alike Eq (submit s (first ++ "\n" ++ second)).reply

variable {unit : TextUnit} {s : Session} {source source' : String} {c : Cursor} {span span' : Span}
  {es : List Tree} {t : Option Tree}

theorem submit_of_read (h : Tree.read unit source.toList = .ok (.block span es t) c) :
    let x := statements (evaluationAt s.limits (nestingLimit - 1)) [] es t s.start
    (s.submit unit source).reply = replyTo source span x ∧
      (s.submit unit source).session.bindings = (scopesLeft x).headD [] ∧
      (s.submit unit source).session.limits = s.limits := by
  unfold submit
  rw [h]
  dsimp only [Tree.run, Tree.runWithin, Run.boundedAt, Tree.span]
  cases statements (evaluationAt s.limits (nestingLimit - 1)) [] es t s.start with
  | ok v r => exact ⟨rfl, rfl, rfl⟩
  | error e r => cases e <;> exact ⟨rfl, rfl, rfl⟩

theorem exists_ok_of_replyTo {x : EStateM.Result RunFault Run Value} {v : Value}
    (h : replyTo source span x = .value v) : ∃ r, x = .ok v r := by
  cases x with
  | ok w r =>
    cases h
    exact ⟨r, rfl⟩
  | error e r => cases e <;> cases h

end Session

/-- Runs that come to the same end get the same reply. -/
theorem Run.Ends.alike {R : Chain → Chain → Prop} {ρ : Span → Span → Prop} {K : Prop}
    {x x' : EStateM.Result RunFault Run Value} (h : Ends R ρ K x x') (source source' : String)
    (span span' : Span) :
    (Session.replyTo source span x).Alike ρ (Session.replyTo source' span' x') := by
  -- What goes wrong in the evaluator itself is blamed on the current node.
  have current : ∀ {r r' : Run}, AtSame ρ r r' → ∀ message,
      (Reply.failure (Session.internalDiagnostic source r.current message)).Alike ρ
        (.failure (Session.internalDiagnostic source' r'.current message)) := by
    rintro r r' ⟨t, t', hr, hr', hspan⟩ message
    rw [hr, hr']
    exact .failure rfl rfl fun _ => hspan
  cases h with
  | ok => exact .value _
  | error he _ hat =>
    cases he with
    | error hs => exact .failure rfl rfl fun _ => hs
    | tooDeep => exact .failure rfl rfl fun h => absurd rfl h
    | unfinished => exact .unfinished
    | unwritable => exact current (hat rfl) _
    | noArithmetic => exact current (hat rfl) _

namespace Session

theorem toList_lines (first second : String) :
    (first ++ "\n" ++ second).toList = first.toList ++ '\n' :: second.toList := by
  rw [String.toList_append, String.toList_append, List.append_assoc]
  rfl

/-- Both ways of submission run the first text, and then the second text in the scope that the first one
leaves. -/
theorem submit_seamless {unit : TextUnit} {first second : String} (hunit : unit ≠ .single)
    (s : Session) (hfirst : unit.Accepts first) (hsecond : unit.Accepts second) :
    Seamless unit (submit unit) s first second := by
  obtain ⟨T, c, hT⟩ := hfirst
  obtain ⟨U, c', hU⟩ := hsecond
  have hplays := Tree.read_plays hT
  have hplays' := Tree.read_plays hU
  obtain ⟨span, es, t, span', fs, t', span'', fs', t'', c'', rfl, rfl, hfs, ht, hlines⟩ :=
    Tree.read_lines hunit hT hU
  rw [← toList_lines] at hlines
  rw [String.length_toList] at hfs ht
  obtain ⟨hreply, hbindings, hlimits⟩ := submit_of_read (s := s) hT
  obtain ⟨hreply', hbindings', -⟩ := submit_of_read (s := s) hlines
  refine ⟨⟨_, _, hlines⟩, fun v hv => ?_, fun hfail => ?_⟩
  · obtain ⟨r, hr⟩ := exists_ok_of_replyTo (hreply.symm.trans hv)
    -- The top level is all there is when the second text begins, in either way of submission.
    have hstart : (s.submit unit first).session.start.scopes = r.scopes := by
      obtain ⟨b, hb⟩ := List.length_eq_one_iff.1
        (hplays.statements_top s.limits (nestingLimit - 1) [] (r := s.start) rfl)
      rw [hr] at hbindings hb
      rw [start, hbindings, hb]
      exact hb.symm
    have hρ : ∀ a a' n, Span.Shifted (first.length + 1) a a' →
        Span.Shifted (first.length + 1) (.ofLength a.start n) (.ofLength a'.start n) := by
      rintro a _ n rfl
      exact (Stream.ofLength_shift ..).symm
    have hends := hplays'.statements_similar .equal (fun _ _ => trivial) hρ hfs ht s.limits
      (nestingLimit - 1) 0 [] [] (es ++ t.toList).length _ r hstart
    rw [← statements_append_of_ok hr] at hends
    obtain ⟨hreply'', hbindings'', -⟩ := submit_of_read (s := (s.submit unit first).session) hU
    rw [hlimits] at hreply'' hbindings''
    rw [hreply', hreply'', hbindings', hbindings'', hends.scopesLeft]
    exact ⟨rfl, hends.alike _ _ _ _⟩
  · cases hx : statements (evaluationAt s.limits (nestingLimit - 1)) [] es t s.start with
    | ok w r =>
      rw [hx] at hreply
      exact absurd hreply (hfail w)
    | error e r =>
      have hself := hplays.statements_same .equal (fun _ _ => trivial) s.limits (nestingLimit - 1) 0
        [] [] s.start s.start rfl
      rw [hx] at hself
      rw [hx] at hreply hbindings
      rw [statements_append_of_error hx] at hreply' hbindings'
      rw [hreply, hreply', hbindings, hbindings']
      exact ⟨rfl, hself.alike _ _ _ _⟩

/-- **Lines may be submitted one by one.** If two texts can be read, then so can the text with both as
lines, and in every session this text fares like they do one after the other: if the first one succeeds,
the bindings are those that both leave, and the reply is that to the second one, with all places moved
behind the first line; if the first one fails, bindings and reply are as for the first one alone. The
same is true of programs. -/
theorem lines_seamless (s : Session) (first second : String) :
    (TextUnit.statements.Accepts first → TextUnit.statements.Accepts second →
      Seamless .statements line s first second) ∧
    (TextUnit.program.Accepts first → TextUnit.program.Accepts second →
      Seamless .program script s first second) :=
  ⟨fun h h' => submit_seamless (by decide) s h h', fun h h' => submit_seamless (by decide) s h h'⟩

/-- A second line that reads, changes and misses names. -/
theorem lines_seamless_of_failure :
    TextUnit.statements.Accepts "var x = true" ∧ TextUnit.statements.Accepts "x = not x; y" ∧
      Seamless .statements line {} "var x = true" "x = not x; y" ∧
      TextUnit.program.Accepts "var x = true" ∧ TextUnit.program.Accepts "var y = x" ∧
      Seamless .program script {} "var x = true" "var y = x" := by
  have hfirst : TextUnit.statements.Accepts "var x = true" := Cursor.exists_ok (by decide +kernel)
  have hsecond : TextUnit.statements.Accepts "x = not x; y" := Cursor.exists_ok (by decide +kernel)
  have hfirst' : TextUnit.program.Accepts "var x = true" := Cursor.exists_ok (by decide +kernel)
  have hsecond' : TextUnit.program.Accepts "var y = x" := Cursor.exists_ok (by decide +kernel)
  exact ⟨hfirst, hsecond, (lines_seamless {} _ _).1 hfirst hsecond, hfirst', hsecond',
    (lines_seamless {} _ _).2 hfirst' hsecond'⟩

end Session

end Curly
