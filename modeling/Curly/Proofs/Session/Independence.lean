import Curly.Proofs.Run.Footprint
import Curly.Proofs.Run.Visibility
import Curly.Proofs.Session.Lines

/-!
# Lines that have nothing to do with each other

A line changes only the names that it declares or assigns to, and fares by the names in it only. So two
lines may be submitted in either order if neither of them changes a name of the other.

## Main definitions

* `Tree.allWithin`: a check of all nodes of a tree.

## Main statements

* `Session.submit_keeps`: the frame of a submission.
* `Session.submit_sees`: a submission depends on the names in its text.
* `Session.lines_commute`: the order of two lines.
-/

namespace Curly

open Run Evaluation

theorem Tree.Targets.occurs {name : String} {t : Tree} (h : t.Targets name) : t.Occurs name := by
  induction h with
  | @root t h =>
    cases t with
    | declaration => exact .root h
    | assignment => exact .root h
    | _ => cases h
  | child hu _ ih => exact .child hu ih

/-- No node of the tree is nested deeper than the given number of levels, and all of them pass. -/
def Tree.allWithin (passes : Tree → Bool) : Nat → Tree → Bool
  | 0, _ => false
  | levels + 1, t => passes t && t.children.all (allWithin passes levels)

theorem Tree.root_of_allWithin {passes : Tree → Bool} {n : Nat} {t : Tree}
    (h : t.allWithin passes n = true) : passes t = true := by
  cases n with
  | zero => cases h
  | succ n => exact ((Bool.and_eq_true ..).mp h).1

theorem Tree.child_of_allWithin {passes : Tree → Bool} {n : Nat} {t u : Tree}
    (h : t.allWithin passes n = true) (hu : u ∈ t.children) : ∃ m, u.allWithin passes m = true := by
  cases n with
  | zero => cases h
  | succ n => exact ⟨n, List.all_eq_true.1 ((Bool.and_eq_true ..).mp h).2 u hu⟩

theorem Tree.targets_of_allWithin {p : String → Bool} {n : Nat} {t : Tree} {name : String}
    (h : t.allWithin (fun u => u.target?.all p) n = true) (hname : t.Targets name) : p name = true := by
  induction hname generalizing n with
  | root ht =>
    have := root_of_allWithin h
    rwa [ht] at this
  | child hu _ ih =>
    obtain ⟨m, hm⟩ := child_of_allWithin h hu
    exact ih hm

theorem Tree.occurs_of_allWithin {p : String → Bool} {n : Nat} {t : Tree} {name : String}
    (h : t.allWithin (fun u => u.name?.all p) n = true) (hname : t.Occurs name) : p name = true := by
  induction hname generalizing n with
  | root ht =>
    have := root_of_allWithin h
    rwa [ht] at this
  | child hu _ ih =>
    obtain ⟨m, hm⟩ := child_of_allWithin h hu
    exact ih hm

namespace Session

variable {unit : TextUnit} {source : String} {s s' : Session} {T : Tree} {c : Cursor}

/-- What is submitted is the statements of a block. -/
theorem exists_statements (h : Tree.read unit source.toList = .ok T c) (hunit : unit ≠ .single) :
    ∃ span es tail, T = .block span es tail := by
  have hplays := Tree.read_plays h
  rw [show unit.role = .block by cases unit <;> first | rfl | exact absurd rfl hunit] at hplays
  cases hplays with
  | block => exact ⟨_, _, _, rfl⟩

/-- After a submission there is one scope, the top level. -/
theorem scopesLeft_of_read {span : Span} {es : List Tree} {tail : Option Tree}
    (h : Tree.read unit source.toList = .ok (.block span es tail) c) :
    scopesLeft (statements (evaluationAt s.limits (nestingLimit - 1)) [] es tail s.start) =
      [(s.submit unit source).session.bindings] := by
  obtain ⟨b, hb⟩ := List.length_eq_one_iff.1
    ((Tree.read_plays h).statements_top s.limits (nestingLimit - 1) [] (r := s.start) rfl)
  rw [(submit_of_read h).2.1, hb]
  rfl

/-- The reply says how the run ended and at which place, and not in which scopes. -/
theorem replyTo_congr {R : Chain → Chain → Prop} {K : Prop}
    {x x' : EStateM.Result RunFault Run Value} (h : Ends R Eq K x x') (source : String) (span : Span) :
    replyTo source span x = replyTo source span x' := by
  have current : ∀ {r r' : Run}, AtSame Eq r r' → ∀ message,
      internalDiagnostic source r.current message = internalDiagnostic source r'.current message := by
    rintro r r' ⟨t, t', hr, hr', hspan⟩ message
    rw [internalDiagnostic, internalDiagnostic, hr, hr', Option.map_some, Option.map_some, hspan]
  cases h with
  | ok => rfl
  | error he _ hat =>
    cases he with
    | error hs => rw [hs]; rfl
    | tooDeep => rfl
    | unfinished => rfl
    | unwritable => exact congrArg Reply.failure (current (hat rfl) _)
    | noArithmetic => exact congrArg Reply.failure (current (hat rfl) _)

theorem find?_top (b : Bindings) (name : String) : Chain.find? [b] name = b.find? name := by
  rw [Chain.find?_cons]
  exact Option.or_none

/-- **Frame**: a submission changes what it declares or assigns to, however it ends. -/
theorem submit_keeps (h : Tree.read unit source.toList = .ok T c) (hunit : unit ≠ .single)
    {name : String} (hname : ¬ T.Targets name) :
    (s.submit unit source).session.bindings.find? name = s.bindings.find? name := by
  obtain ⟨span, es, tail, rfl⟩ := exists_statements h hunit
  have hframes : Frames (fun _ => True) (Tree.block span es tail).Targets
      (statements (evaluationAt s.limits (nestingLimit - 1)) [] es tail) :=
    statements_frames fun p e he => (evaluationAt_frames s.limits _ p e).mono
      (fun _ _ => trivial) fun _ h => .child he h
  have hextends := hframes.scopesLeft s.bindings [] none (if s.tracing then some [] else none)
  have hleft := scopesLeft_of_read (s := s) h
  rw [start] at hleft
  rw [hleft] at hextends
  cases hextends with
  | intro hinner _ => exact hinner.values name hname

/-- **Noninterference**: a submission is answered by what the names in it mean, and leaves them with
meanings that depend on nothing else. -/
theorem submit_sees (h : Tree.read unit source.toList = .ok T c) (hunit : unit ≠ .single)
    (hlimits : s'.limits = s.limits)
    (hnames : ∀ name, T.Occurs name → s'.bindings.find? name = s.bindings.find? name) :
    (s'.submit unit source).reply = (s.submit unit source).reply ∧
      ∀ name, T.Occurs name → (s'.submit unit source).session.bindings.find? name =
        (s.submit unit source).session.bindings.find? name := by
  obtain ⟨span, es, tail, rfl⟩ := exists_statements h hunit
  have hstart : Layered (Tree.block span es tail).Occurs 0 s'.start.scopes s.start.scopes := by
    refine .base fun name hname => ?_
    exact (find?_top _ name).trans ((hnames name hname).trans (find?_top _ name).symm)
  have hends : Ends (Layered (Tree.block span es tail).Occurs 0) Eq (AtSame Eq s'.start s.start)
      (statements (evaluationAt s.limits (nestingLimit - 1)) [] es tail s'.start)
      (statements (evaluationAt s.limits (nestingLimit - 1)) [] es tail s.start) :=
    (Tree.read_plays h).statements_agree _ 0 [] [] s'.start s.start hstart
  have hleft := scopesLeft_of_read (s := s) h
  have hleft' := scopesLeft_of_read (s := s') h
  rw [hlimits] at hleft'
  refine ⟨?_, fun name hname => ?_⟩
  · rw [(submit_of_read h).1, (submit_of_read h).1, hlimits]
    exact replyTo_congr hends source span
  · have hfind := hends.scopesLeft.find? hname
    rw [hleft, hleft'] at hfind
    rwa [find?_top, find?_top] at hfind

theorem submit_limits (unit : TextUnit) (s : Session) (source : String) :
    (s.submit unit source).session.limits = s.limits := by
  unfold submit
  split
  · rfl
  · dsimp only
    split <;> rfl

/-- **Independent lines commute.** If no name that is declared or assigned to in one of two lines occurs
in the other, then each line is answered alike whether it is submitted first or second, and in either
order all names mean the same afterwards. Either line may fail half-way. -/
theorem lines_commute (s : Session) {source source' : String} {T U : Tree} {c c' : Cursor}
    (hT : Tree.read .statements source.toList = .ok T c)
    (hU : Tree.read .statements source'.toList = .ok U c')
    (hTU : ∀ name, T.Targets name → ¬ U.Occurs name)
    (hUT : ∀ name, U.Targets name → ¬ T.Occurs name) :
    ((s.line source').session.line source).reply = (s.line source).reply ∧
      ((s.line source).session.line source').reply = (s.line source').reply ∧
      ∀ name, ((s.line source).session.line source').session.bindings.find? name =
        ((s.line source').session.line source).session.bindings.find? name := by
  have hunit : TextUnit.statements ≠ .single := by decide
  -- Each line finds its names after the other one as it finds them without it.
  have hsees := submit_sees hT hunit (submit_limits .statements s source') fun name hname =>
    submit_keeps hU hunit fun h => hUT name h hname
  have hsees' := submit_sees hU hunit (submit_limits .statements s source) fun name hname =>
    submit_keeps hT hunit fun h => hTU name h hname
  refine ⟨hsees.1, hsees'.1, fun name => ?_⟩
  by_cases hname : T.Targets name
  · calc ((s.line source).session.line source').session.bindings.find? name
        = (s.line source).session.bindings.find? name :=
          submit_keeps hU hunit fun h => hTU name hname h.occurs
      _ = _ := (hsees.2 name hname.occurs).symm
  · by_cases hname' : U.Targets name
    · calc ((s.line source).session.line source').session.bindings.find? name
          = (s.line source').session.bindings.find? name := hsees'.2 name hname'.occurs
        _ = _ := (submit_keeps hT hunit hname).symm
    · calc ((s.line source).session.line source').session.bindings.find? name
          = (s.line source).session.bindings.find? name := submit_keeps hU hunit hname'
        _ = s.bindings.find? name := submit_keeps hT hunit hname
        _ = (s.line source').session.bindings.find? name := (submit_keeps hU hunit hname').symm
        _ = _ := (submit_keeps hT hunit hname).symm

/-- A line that changes a name and then misses one, and a line that declares a name. -/
theorem lines_commute_after_failure :
    ∃ s : Session, ∃ T U c c', s.bindings = [("x", .bool false)] ∧
      Tree.read .statements "x = true; u".toList = .ok T c ∧
      Tree.read .statements "var y = true".toList = .ok U c' ∧
      (∀ name, T.Targets name → ¬ U.Occurs name) ∧ (∀ name, U.Targets name → ¬ T.Occurs name) ∧
      ((s.line "var y = true").session.line "x = true; u").reply = (s.line "x = true; u").reply ∧
      ((s.line "x = true; u").session.line "var y = true").reply = (s.line "var y = true").reply ∧
      ∀ name, ((s.line "x = true; u").session.line "var y = true").session.bindings.find? name =
        ((s.line "var y = true").session.line "x = true; u").session.bindings.find? name := by
  have hT : (Cursor.result? (Tree.read .statements "x = true; u".toList)).any (fun T =>
      T.allWithin (fun u => u.target?.all (["x"].contains ·)) 3 &&
        T.allWithin (fun u => u.name?.all (["x", "u"].contains ·)) 3) = true := by decide +kernel
  have hU : (Cursor.result? (Tree.read .statements "var y = true".toList)).any (fun U =>
      U.allWithin (fun u => u.target?.all (["y"].contains ·)) 3 &&
        U.allWithin (fun u => u.name?.all (["y"].contains ·)) 3) = true := by decide +kernel
  obtain ⟨T, hresult, hT⟩ := (Option.any_eq_true ..).1 hT
  obtain ⟨U, hresult', hU⟩ := (Option.any_eq_true ..).1 hU
  obtain ⟨c, hread⟩ := Cursor.exists_of_result? hresult
  obtain ⟨c', hread'⟩ := Cursor.exists_of_result? hresult'
  obtain ⟨htargets, hoccurs⟩ := (Bool.and_eq_true ..).mp hT
  obtain ⟨htargets', hoccurs'⟩ := (Bool.and_eq_true ..).mp hU
  have hTU : ∀ name, T.Targets name → ¬ U.Occurs name := fun name h h' => by
    have hname := Tree.targets_of_allWithin htargets h
    rw [List.contains_iff_mem, List.mem_singleton] at hname
    subst hname
    exact absurd (Tree.occurs_of_allWithin hoccurs' h') (by decide)
  have hUT : ∀ name, U.Targets name → ¬ T.Occurs name := fun name h h' => by
    have hname := Tree.targets_of_allWithin htargets' h
    rw [List.contains_iff_mem, List.mem_singleton] at hname
    subst hname
    exact absurd (Tree.occurs_of_allWithin hoccurs h') (by decide)
  exact ⟨{ bindings := [("x", .bool false)] }, T, U, c, c', rfl, hread, hread', hTU, hUT,
    lines_commute _ hread hread' hTU hUT⟩

end Session

end Curly
