import Curly.Proofs.Grammar.Alongside
import Curly.Proofs.Grammar.Faults
import Curly.Proofs.Grammar.Roles
import Curly.Proofs.Run.Sequence

/-!
# Spelling makes no difference

Texts whose tokens say the same fare the same, whatever stands between the tokens, however operators and
literals are spelled, and however many ends of line follow one another.

## Main definitions

* `Tree.RunsLike`: trees that do the same when they are evaluated or run.
* `Tree.FaresLike`: how two texts are read that say the same.

## Main statements

* `Tree.read_spelling`: texts that say the same fare the same.
-/

namespace Curly

open Cursor Run Evaluation

namespace Tree

/-- In equal scopes and under the same limits, both trees have the same value or fail for the same
reason, and they leave equal scopes. A block does so when it is run as well. -/
structure RunsLike (T T' : Tree) : Prop where
  evaluate : ∀ limits, Agree Eq (fun _ _ => True) (T.evaluate limits) (T'.evaluate limits)
  run : ∀ s es tail, T = .block s es tail → ∀ limits,
    Agree Eq (fun _ _ => True) (T.run limits) (T'.run limits)

/-- Both texts, which have the tokens `ts` and `ts'`, are read, as trees of the same form which do the
same; or both are rejected for the same reason and at corresponding tokens; or both are nested too
deeply. -/
inductive FaresLike (ts ts' : List Token) :
    EStateM.Result ReadFault Cursor Tree → EStateM.Result ReadFault Cursor Tree → Prop where
  | accepted {T T' c c'} (hform : SameForm T T') (hruns : RunsLike T T') :
      FaresLike ts ts' (.ok T c) (.ok T' c')
  | rejected {t t' cause cause' c c'} (ht : Corresponds ts ts' t t')
      (hcause : SyntaxCause.Alike (Corresponds ts ts') cause cause') :
      FaresLike ts ts' (.error (.syntactic ⟨cause, t.span⟩) c) (.error (.syntactic ⟨cause', t'.span⟩) c')
  | tooDeep {c c'} : FaresLike ts ts' (.error .tooDeep c) (.error .tooDeep c')

/-- What a tree does depends on its form only. -/
theorem SameForm.runsLike {role : Role} {T T' : Tree} (h : SameForm T T') (hT : Plays role T) :
    RunsLike T T' where
  evaluate := fun limits => by
    have hagree := evaluationAt_agree .equal (fun _ _ _ h => h) limits nestingLimit hT h
      (fun _ _ => trivial) 0 [] []
    exact hagree.boundedAt trivial
  run := by
    rintro s es tail rfl limits
    obtain ⟨s', es', tail', rfl, hes, htail⟩ := h.exists_statements
    have hagree := hT.statements_similar .equal (fun _ _ => trivial) (fun _ _ _ h => h) hes htail limits
      (nestingLimit - 1) 0 [] [] 0
    rw [statementsFrom_zero] at hagree
    exact hagree.boundedAt trivial

/-- **Spelling makes no difference.** Take two texts without faults in their characters whose tokens say
the same, that is, have the same kinds, two spellings of one operator counting as one kind, and the same
payloads, except for ends of line that follow other ends of line. As any unit both are read, or neither
is. The trees have the same form, and in equal scopes and under the same limits they come to the same
end and leave equal scopes. If the texts are rejected for their grammar, they are so for the same reason
and at corresponding tokens. -/
theorem read_spelling {text text' : List Char}
    (hending : (Stream.ofText .standard text).ending = .exhausted)
    (hending' : (Stream.ofText .standard text').ending = .exhausted)
    (h : gists (Stream.ofText .standard text).tokens = gists (Stream.ofText .standard text').tokens)
    (u : TextUnit) :
    FaresLike (Stream.ofText .standard text).tokens (Stream.ofText .standard text').tokens
      (read u text) (read u text') := by
  have habreast : Abreast (Corresponds (Stream.ofText .standard text).tokens
      (Stream.ofText .standard text').tokens) (.ofStream .standard (Stream.ofText .standard text))
      (.ofStream .standard (Stream.ofText .standard text')) false
      (Stream.ofText .standard text).tokens (Stream.ofText .standard text').tokens :=
    ⟨matches_of_gists h, Stream.legible text, Stream.legible text', Nat.lt_succ_self _,
      Nat.lt_succ_self _⟩
  have hfare : Fare (Corresponds (Stream.ofText .standard text).tokens
      (Stream.ofText .standard text').tokens) _ _ (fun T T' _ _ => SameForm T T')
      (read u text) (read u text') :=
    TextUnit.read_alongside rfl rfl nestingLimit u habreast (.ofStream (Stream.ofText .standard text))
      (.ofStream (Stream.ofText .standard text')) (Stream.proper text).regular
      (hending.trans hending'.symm) rfl rfl
  cases hx : read u text with
  | ok T c =>
    rw [hx] at hfare
    generalize read u text' = x' at hfare
    cases hfare with
    | ok _ _ _ _ hform => exact .accepted hform (hform.runsLike (read_plays hx))
  | error e c =>
    rw [hx] at hfare
    generalize read u text' = x' at hfare
    cases hfare with
    | error he =>
      cases he with
      | syntactic ht hcause => exact .rejected ht hcause
      | other hother =>
        rcases read_error_exhausted hending hx with rfl | ⟨s, rfl⟩
        · exact .tooDeep
        · exact absurd rfl (hother s)

/-- Other spaces, a tab as an escape and as itself, both spellings of two operators, two numerals for one
number, and a statement that ends in several ways at once. -/
theorem read_spelling_of_operators :
    let s := Stream.ofText .standard "var a = \"x\\ty\" & 1.50; do { a = !a }".toList
    let s' := Stream.ofText .standard "var\ta=\"x\ty\" and 1.5 ;\r\n;do {a = not a}".toList
    s.ending = .exhausted ∧ s'.ending = .exhausted ∧ gists s.tokens = gists s'.tokens ∧
      FaresLike s.tokens s'.tokens
        (read .statements "var a = \"x\\ty\" & 1.50; do { a = !a }".toList)
        (read .statements "var\ta=\"x\ty\" and 1.5 ;\r\n;do {a = not a}".toList) := by
  refine ⟨?_, ?_, ?_, read_spelling ?_ ?_ ?_ .statements⟩
  all_goals decide +kernel

end Tree

end Curly
