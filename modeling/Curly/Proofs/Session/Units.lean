import Curly.Proofs.Grammar.Units
import Curly.Proofs.Run.Limits
import Curly.Proofs.Run.Sequence
import Curly.Proofs.Session.Lines

/-!
# Programs as lines

A program may be typed as a line: it is read as the same statements, and its last declaration says
nothing more as a tail than it does as a statement.

## Main statements

* `Tree.run_untailed`: a block that ends with a declaration has no need of a tail.
* `Session.units_agree`: the units of text are read alike, and a program fares like a line.
-/

namespace Curly

open Run Evaluation

section

variable {es : List Tree} {t : Option Tree}

/-- The value of a declaration is null. -/
theorem Tree.IsDeclaration.evaluate_null {e : Tree} (h : e.IsDeclaration) (limits : Limits)
    (n : Nat) (path : List Nat) :
    Triple (fun _ => True) (evaluationAt limits n path e) (fun v _ => v = .null)
      fun _ _ => True := by
  obtain ⟨s, name, e, rfl⟩ := h
  have store : ∀ v, Triple (fun _ => True) (declare name v) (fun v _ => v = .null)
      fun _ _ => True := by
    intro v
    refine Triple.bind (Q := fun _ _ => True) (Triple.read fun _ h => h) fun r => ?_
    have bound : Triple (fun _ => True) (do
        modify fun r => { r with scopes := r.scopes.declare name v }
        return Value.null) (fun v _ => v = .null) fun _ _ => True :=
      Triple.bind (Q := fun _ _ => True) (Triple.update fun _ h => h) fun _ =>
        Triple.pure fun _ _ => rfl
    split
    · exact Triple.bind (Q := fun _ _ => True) (Triple.note fun _ h => h) fun _ => bound
    · exact bound
  cases n with
  | zero => exact Triple.throw fun _ h => h
  | succ n =>
    rw [evaluationAt_succ]
    refine Triple.bind (Q := fun _ _ => True) (Triple.note fun _ h => h) fun _ => ?_
    refine Triple.bind (Q := fun _ _ => True) (Triple.setCurrent fun _ h => h) fun _ => ?_
    exact Triple.bind (Triple.any _) store

/-- Statements whose last one is a declaration have no value but null. -/
theorem statements_null (h : ∀ e ∈ t, e.IsDeclaration) (limits : Limits) (n : Nat)
    (path : List Nat) (es : List Tree) :
    Triple (fun _ => True) (statements (evaluationAt limits n) path es t) (fun v _ => v = .null)
      fun _ _ => True := by
  refine Triple.bind (Triple.any _) fun _ => ?_
  cases t with
  | none => exact Triple.pure fun _ _ => rfl
  | some e => exact (h e rfl).evaluate_null limits n _

/-- A declaration at the end is run alike as a tail and as a statement. -/
theorem statements_untailed (h : ∀ e ∈ t, e.IsDeclaration) (limits : Limits) (n : Nat)
    (path : List Nat) :
    statements (evaluationAt limits n) path (es ++ t.toList) none =
      statements (evaluationAt limits n) path es t := by
  funext r
  have hnull := statements_null h limits n path es r trivial
  rw [statements, each_toList, bind_run, bind_run]
  cases hrun : statements (evaluationAt limits n) path es t r with
  | ok v r' =>
    rw [hrun] at hnull
    rw [hnull]
    rfl
  | error => rfl

/-- A block that ends with a declaration has no need of a tail. -/
theorem Tree.run_untailed (h : ∀ e ∈ t, e.IsDeclaration) (limits : Limits) (s : Span) :
    (Tree.block s (es ++ t.toList) none).run limits = (Tree.block s es t).run limits :=
  congrArg (boundedAt s) (statements_untailed h limits (nestingLimit - 1) [])

end

namespace Session

variable {source : String}

/-- A program fares as a script like it does as a line, if it is not nested too deeply for a line. -/
theorem script_eq_line (s : Session) (h : TextUnit.program.Accepts source)
    (hdeep : ¬∃ c, Tree.read .statements source.toList = .error .tooDeep c) :
    (s.script source).reply = (s.line source).reply ∧
      (s.script source).session = (s.line source).session := by
  obtain ⟨T, c, hT⟩ := h
  obtain ⟨span, es, t, ⟨c', hc'⟩, hdecl, rfl⟩ :=
    ((Tree.read_program_iff_or nestingLimit source.toList).resolve_left hdeep T).1 ⟨c, hT⟩
  have hline : Tree.read .statements source.toList = .ok (.block span es t) c' := hc'
  have htail : ∀ e ∈ t, e.IsDeclaration := fun e he =>
    hdecl e (List.mem_append_right es (Option.mem_toList.2 he))
  have hrun : (Tree.block span (es ++ t.toList) none).run s.limits =
      (Tree.block span es t).run s.limits := Tree.run_untailed htail s.limits span
  unfold script line submit
  rw [hT, hline]
  dsimp only
  rw [hrun]
  cases (Tree.block span es t).run s.limits s.start with
  | ok v r => exact ⟨rfl, rfl⟩
  | error e r => exact ⟨rfl, rfl⟩

/-- The reply to a program says nothing unless it fails, or unless it has no end. -/
theorem script_reply (s : Session) (h : TextUnit.program.Accepts source) :
    (s.script source).reply = .value .null ∨ (∃ d, (s.script source).reply = .failure d) ∨
      (s.script source).reply = .unfinished ∧ s.limits.loop = none := by
  obtain ⟨T, c, hT⟩ := h
  obtain ⟨span, es, t, -, -, rfl⟩ := (Tree.read_program_iff nestingLimit).1 ⟨c, hT⟩
  have hnull := statements_null (t := none) nofun s.limits (nestingLimit - 1) [] (es ++ t.toList) s.start
    trivial
  have hallows : Triple (fun _ => True)
      (statements (evaluationAt s.limits (nestingLimit - 1)) [] (es ++ t.toList) none)
      (Kept (fun _ => True) fun _ => True) fun e _ => s.limits.Allows e :=
    statements_kept (s := span) .trivial fun i u _ => evaluationAt_allows s.limits _ [i] u
  rw [script, (submit_of_read hT).1]
  cases hrun : statements (evaluationAt s.limits (nestingLimit - 1)) [] (es ++ t.toList) none
    s.start with
  | ok v r =>
    rw [hrun] at hnull
    rw [hnull]
    exact .inl rfl
  | error e r =>
    cases e with
    | unfinished =>
      cases hallows.of_error trivial hrun with
      | unfinished hl => exact .inr (.inr ⟨rfl, hl⟩)
    | _ => exact .inr (.inl ⟨_, rfl⟩)

/-- **The units of text agree.** A text is a single statement if and only if it is a list of statements
with this statement as its only entry, whether or not an end of line follows. It is a program if and
only if it is a list of statements that are all declarations, and then the trees cover the same part
of the text and have the same entries; the list of statements takes room for one more call, so that with
the same room it may be nested too deeply. A program that is submitted as a script fares like one that is
typed as a line, unless this is nested too deeply: the reply is null or the same failure, and the session
afterwards is the same. Only where loops are not bounded, neither may come to an end. -/
theorem units_agree :
    (∀ n text T, (∃ c, Tree.readWithin n .single text = .ok T c) ↔
      ∃ span es t, (∃ c, Tree.readWithin n .statements text = .ok (.block span es t) c) ∧
        es ++ t.toList = [T]) ∧
    (∀ n text T, (∃ c, Tree.readWithin n .program text = .ok T c) ↔
      ∃ span es t, (∃ c, Tree.readWithin (n + 1) .statements text = .ok (.block span es t) c) ∧
        (∀ e ∈ es ++ t.toList, e.IsDeclaration) ∧ T = .block span (es ++ t.toList) none) ∧
    (∀ text, (∃ c, Tree.read .statements text = .error .tooDeep c) ∨
      ∀ T, (∃ c, Tree.read .program text = .ok T c) ↔
        ∃ span es t, (∃ c, Tree.read .statements text = .ok (.block span es t) c) ∧
          (∀ e ∈ es ++ t.toList, e.IsDeclaration) ∧ T = .block span (es ++ t.toList) none) ∧
    ∀ (s : Session) source, TextUnit.program.Accepts source →
      (∃ c, Tree.read .statements source.toList = .error .tooDeep c) ∨
      (s.script source).reply = (s.line source).reply ∧
        (s.script source).session = (s.line source).session ∧
        ((s.line source).reply = .value .null ∨ (∃ d, (s.line source).reply = .failure d) ∨
          (s.line source).reply = .unfinished ∧ s.limits.loop = none) := by
  refine ⟨fun n text T => Tree.read_single_iff n, fun n text T => Tree.read_program_iff n,
    Tree.read_program_iff_or nestingLimit, fun s source h => ?_⟩
  by_cases hdeep : ∃ c, Tree.read .statements source.toList = .error .tooDeep c
  · exact .inl hdeep
  · obtain ⟨hreply, hsession⟩ := script_eq_line s h hdeep
    have hnull := script_reply s h
    rw [hreply] at hnull
    exact .inr ⟨hreply, hsession, hnull⟩

/-- A program whose last declaration has no initializer. -/
theorem units_agree_without_initializer :
    TextUnit.program.Accepts "var x = true; var y" ∧
      (({} : Session).script "var x = true; var y").reply =
        (({} : Session).line "var x = true; var y").reply ∧
      (({} : Session).script "var x = true; var y").session =
        (({} : Session).line "var x = true; var y").session ∧
      ((({} : Session).line "var x = true; var y").reply = .value .null ∨
        (∃ d, (({} : Session).line "var x = true; var y").reply = .failure d) ∨
          (({} : Session).line "var x = true; var y").reply = .unfinished ∧
            ({} : Session).limits.loop = none) := by
  have haccepts : TextUnit.program.Accepts "var x = true; var y" :=
    Cursor.exists_ok (by decide +kernel)
  have hshallow : ¬∃ c, Tree.read .statements "var x = true; var y".toList = .error .tooDeep c := by
    obtain ⟨T, c, h⟩ := Cursor.exists_ok (r := Tree.read .statements "var x = true; var y".toList)
      (by decide +kernel)
    rw [h]
    rintro ⟨_, ⟨⟩⟩
  exact ⟨haccepts, (units_agree.2.2.2 {} _ haccepts).resolve_left hshallow⟩

end Session

end Curly
