import Curly.Proofs.Run.Invariant
import Curly.Proofs.Tree.Roles

/-!
# Safe runs

A tree in which every node means something evaluates to values of the language, and fails only with
errors of the language, at places in the text.

## Main definitions

* `Value.Native`, `Chain.Native`: values of the language, and scopes that bind such values.
* `RunFault.OfText`: the faults that a run of a text may end in.
* `Tree.Harmless`: a node whose evaluation goes wrong in the ways of the language only.

## Main statements

* `Tree.run_native`: running harmless statements in native scopes.
-/

namespace Curly

/-- The value is one of the language. -/
def Value.Native (v : Value) : Prop := v.kind ≠ .foreign

/-- All names are bound to values of the language. -/
def Bindings.Native (b : Bindings) : Prop := ∀ p ∈ b, p.2.Native

/-- All scopes bind values of the language only. -/
def Chain.Native (c : Chain) : Prop := ∀ b ∈ c, Bindings.Native b

namespace Bindings

variable {b : Bindings} {name : String} {v : Value}

theorem Native.bind (h : Native b) (hv : v.Native) (name : String) : Native (bind name v b) := by
  induction b with
  | nil =>
    intro p hp
    rw [List.mem_singleton.1 hp]
    exact hv
  | cons entry b ih =>
    obtain ⟨n, w⟩ := entry
    have hb : Native b := fun p hp => h p (List.mem_cons_of_mem _ hp)
    unfold Bindings.bind
    split
    · exact List.forall_mem_cons.2 ⟨hv, hb⟩
    · exact List.forall_mem_cons.2 ⟨h _ (List.mem_cons_self ..), ih hb⟩

theorem Native.find? (h : Native b) (hfind : b.find? name = some v) : v.Native := by
  obtain ⟨before, after, rfl, -⟩ := List.lookup_eq_some_iff.1 hfind
  exact h (name, v) (List.mem_append_right before (List.mem_cons_self ..))

end Bindings

namespace Chain

variable {c : Chain} {name : String} {v : Value}

theorem Native.push (h : Native c) : Native c.push := List.forall_mem_cons.2 ⟨List.forall_mem_nil _, h⟩

theorem Native.pop (h : Native c) : Native c.pop := fun b hb => h b (List.mem_of_mem_tail hb)

theorem Native.declare (h : Native c) (hv : v.Native) (name : String) : Native (c.declare name v) := by
  cases c with
  | nil => exact List.forall_mem_singleton.2 (Bindings.Native.bind (List.forall_mem_nil _) hv name)
  | cons b outer =>
    obtain ⟨hb, houter⟩ := List.forall_mem_cons.1 h
    exact List.forall_mem_cons.2 ⟨Bindings.Native.bind hb hv name, houter⟩

theorem Native.assign (h : Native c) (hv : v.Native) (index : Nat) (name : String) :
    Native (c.assign index name v) := by
  intro b hb
  obtain ⟨i, hi⟩ := List.getElem?_of_mem hb
  rw [Chain.assign, List.getElem?_modify] at hi
  obtain ⟨b', hb', rfl⟩ := Option.map_eq_some_iff.1 hi
  have hnative := h b' (List.mem_of_getElem? hb')
  split
  · exact hnative.bind hv name
  · exact hnative

theorem Native.find? (h : Native c) (hfind : c.find? name = some v) : v.Native := by
  obtain ⟨index, -, hfind⟩ := Option.bind_eq_some_iff.1 hfind
  obtain ⟨b, hb, hfind⟩ := Option.bind_eq_some_iff.1 hfind
  exact (h b (List.mem_of_getElem? hb)).find? hfind

end Chain

/-- The fault is one of the language, at a place in a text with `n` characters. A run is only given up
if its loops are not bounded, and goes wrong in the evaluator only if they have a bound that cannot be
written. -/
def RunFault.OfText (n : Nat) (limits : Limits) : RunFault → Prop
  | .error e => e.cause ≠ .meaningless ∧ e.span.stop ≤ n
  | .tooDeep => True
  | .unfinished => limits.loop = none
  | .notABlock => False
  | .unwritable limit => limits.loop = some limit ∧ Numeral.isWritable limit = false
  | .noArithmetic _ => False

/-- The node writes out a value of the language only, and the errors that it raises by itself are errors
of the language at places in a text with `n` characters. -/
structure Tree.Harmless (n : Nat) (t : Tree) : Prop where
  literal : ∀ s v, t = .literal s v → v.Native
  raises : ∀ cause span, t.Raises cause span → cause ≠ .meaningless ∧ span.stop ≤ n
  loop : ∀ s body, t = .loop s body → s.stop ≤ n

open Run Evaluation

variable {n : Nat} {limits : Limits}

theorem native_invariant (n : Nat) (limits : Limits) : Invariant Value.Native (fun r => r.scopes.Native)
    fun e r => e.OfText n limits ∧ r.scopes.Native where
  note := fun _ _ _ h => h
  setCurrent := fun _ _ h => h
  push := fun _ h => h.push
  pop := fun _ h => h.pop
  popFault := fun _ _ h => ⟨h.1, h.2.pop⟩
  declare := fun _ name _ h hv => h.declare hv name
  assign := fun _ i name _ h hv => h.assign hv i name
  find := fun _ _ _ h => h.find?
  null := nofun
  bool := fun _ => nofun
  number := fun _ => nofun

/-- The nodes of a tree are evaluated safely if all of them are harmless. -/
theorem evaluationAt_native {T : Tree} (hT : ∀ path u, T.at? path = some u → u.Harmless n)
    (calls : Nat) {path : List Nat} {u : Tree} (hu : T.at? path = some u) :
    Triple (fun r => r.scopes.Native) (evaluationAt limits calls path u)
      (Kept Value.Native fun r => r.scopes.Native) fun e r => e.OfText n limits ∧ r.scopes.Native := by
  have h := native_invariant n limits
  revert hu
  refine evaluationAt_induction (motive := fun path u m => T.at? path = some u →
    Triple (fun r => r.scopes.Native) m (Kept Value.Native fun r => r.scopes.Native)
      fun e r => e.OfText n limits ∧ r.scopes.Native)
    (fun _ _ _ => Triple.throw fun _ hr => ⟨trivial, hr⟩) (fun below path u ih hu => ?_) calls path u
  have hharmless := hT path u hu
  refine node_kept h (fun _ hr => hr) hharmless.literal (fun cause span hraises r hr =>
    ⟨hharmless.raises cause span hraises, hr⟩) (fun s body ht hbody => ?_) fun i v hv => ?_
  · exact rounds_kept h (fun _ _ _ _ hr => ⟨⟨nofun, hharmless.loop s body ht⟩, hr⟩)
      (fun _ _ hl hw hr => ⟨⟨hl, hw⟩, hr⟩) (fun _ hl hr => ⟨hl, hr⟩) hbody _ _
  · exact ih _ v ((Tree.at?_cons hu i).trans hv)

/-- Statements are run safely if all nodes in them are harmless. -/
theorem Tree.run_native {s : Span} {es : List Tree} {tail : Option Tree} (hs : s.stop ≤ n)
    (hT : ∀ path u, (Tree.block s es tail).at? path = some u → u.Harmless n) :
    Triple (fun r => r.scopes.Native) ((Tree.block s es tail).run limits)
      (Kept Value.Native fun r => r.scopes.Native) fun e r => e.OfText n limits ∧ r.scopes.Native := by
  refine Triple.boundedAt (statements_kept (s := s) (native_invariant n limits) fun i u hu => ?_)
    (fun r hr => ⟨⟨nofun, hs⟩, hr.2⟩) fun _ _ _ h => h
  exact evaluationAt_native hT _ ((Tree.at?_cons (Tree.at?_nil _) i).trans hu)

end Curly
