import Curly.Proofs.Grammar.Lines
import Curly.Proofs.Grammar.Roles
import Curly.Proofs.Token.Splice

/-!
# The text under a node

Every node of a tree that was read is derived from tokens in a row, those under its span. So the text
under the span, read alone, is read as this node.

## Main definitions

* `Phrase.callsAbove`: the calls that a phrase is deeper as a statement.
* `Tree.Written`: a tree is derived from some of the tokens in a row.
* `Tree.Implicit`: the null that a declaration without an initializer is given.

## Main statements

* `Phrase.Derives.written_child`: what is below a derived tree is written among its tokens.
* `Tree.read_written`: the nodes of a tree that was read are written in the text.
* `Tree.read_slice`: the text under a node is read as this node.
-/

namespace Curly

/-- The number of calls that come on top of those for a phrase where it is a statement of its own. A
block is none. -/
def Phrase.callsAbove : Phrase → Nat
  | .statement => 0
  | .block => 0
  | _ => 1

/-- The tree is derived from some of the tokens, which stand in a row, and as a statement it is nested no
more deeply than `d`. -/
def Tree.Written (d : Nat) (ts : List Token) (T : Tree) : Prop :=
  ∃ x us e, us <:+: ts ∧ e + x.callsAbove ≤ d ∧ Phrase.Derives e x us T

/-- The node at the path is the null that a declaration without an initializer is given. -/
def Tree.Implicit (T : Tree) (path : List Nat) : Prop :=
  ∃ path' s n s', path = 0 :: path' ∧ T.at? path' = some (.declaration s n (.literal s' .null))

theorem Listing.infix_of_mem {ts : List Token} {parts : List Part} {es : List Tree} {t : Option Tree}
    (h : Listing ts parts es t) {p : Part} (hp : p ∈ parts) : p.1 <:+: ts := by
  induction h with
  | nil => cases hp
  | tail =>
    obtain rfl := List.mem_singleton.1 hp
    exact List.infix_refl _
  | statement _ _ _ ih =>
    rcases List.mem_cons.1 hp with rfl | hp
    · exact (List.prefix_append _ _).isInfix
    · exact (ih hp).trans
        ((List.suffix_append _ _).isInfix.trans (List.suffix_append _ _).isInfix)

theorem Arguments.infix_of_mem {ts : List Token} {parts : List Part} (h : Arguments ts parts)
    {p : Part} (hp : p ∈ parts) : p.1 <:+: ts := by
  induction h with
  | nil => cases hp
  | last =>
    obtain rfl := List.mem_singleton.1 hp
    exact List.infix_refl _
  | cons _ _ ih =>
    rcases List.mem_cons.1 hp with rfl | hp
    · exact (List.prefix_append _ _).isInfix
    · exact (ih hp).trans
        ((List.suffix_cons _ _).isInfix.trans (List.suffix_append _ _).isInfix)

namespace Tree.Written

variable {d d' : Nat} {ts us : List Token} {T : Tree}

theorem of_derives {x : Phrase} (h : Phrase.Derives d x ts T) : Written (d + x.callsAbove) ts T :=
  ⟨x, ts, d, List.infix_refl ts, Nat.le_refl _, h⟩

theorem mono (h : Written d us T) (hd : d ≤ d') (hus : us <:+: ts) : Written d' ts T := by
  obtain ⟨x, vs, e, hvs, he, hT⟩ := h
  exact ⟨x, vs, e, hvs.trans hus, Nat.le_trans he hd, hT⟩

end Tree.Written

namespace Phrase.Derives

variable {d : Nat} {x : Phrase} {ts : List Token} {T u : Tree}

/-- What is below a derived tree is written among its tokens, apart from the null that a declaration
without an initializer is given. -/
theorem written_child (h : Derives d x ts T) (hu : u ∈ T.children) :
    Tree.Written (d + x.callsAbove) ts u ∨
      ∃ s n s', u = .literal s' .null ∧ T = .declaration s n u := by
  have prefixed : ∀ {d d' : Nat} {us : List Token} (vs : List Token), Tree.Written d us u → d ≤ d' →
      Tree.Written d' (vs ++ us) u := fun _ h hd => h.mono hd (List.suffix_append _ _).isInfix
  -- The rules that only rename a phrase keep the tree, and parentheses keep what is below it.
  induction h with
  | declaration _ _ _ hv =>
    obtain rfl := List.mem_singleton.1 hu
    exact .inl (prefixed [_, _, _] (.of_derives hv) (Nat.le_succ _))
  | bareDeclaration =>
    obtain rfl := List.mem_singleton.1 hu
    exact .inr ⟨_, _, _, rfl, rfl⟩
  | evaluation _ ih => exact ih hu
  | assignment _ _ hv =>
    obtain rfl := List.mem_singleton.1 hu
    exact .inl (prefixed [_, _] (.of_derives hv) (Nat.le_succ _))
  | operation _ ih => exact ih hu
  | @tighter _ l _ _ _ ih =>
    have hl : l.tighter.callsAbove = 1 := by cases l <;> rfl
    rw [hl] at ih
    exact ih hu
  | @binary d l op o a A b B ha _ hb =>
    rcases List.mem_cons.1 hu with rfl | hu
    · exact .inl ((Tree.Written.of_derives ha).mono (Nat.le_refl _)
        (List.prefix_append _ _).isInfix)
    · obtain rfl := List.mem_singleton.1 hu
      have hl : l.tighter.callsAbove = 1 := by cases l <;> rfl
      have hB := Tree.Written.of_derives hb
      rw [hl] at hB
      rw [← List.singleton_append, ← List.append_assoc]
      exact .inl (prefixed _ hB (Nat.le_succ _))
  | unary _ ha =>
    obtain rfl := List.mem_singleton.1 hu
    exact .inl (prefixed [_] (.of_derives ha) (Nat.le_succ _))
  | unsigned _ ih => exact ih hu
  | uncalled _ ih => exact ih hu
  | @call d f F opener ts parts closer hf _ hts hparts _ =>
    rcases List.mem_cons.1 hu with rfl | hu
    · exact .inl ((Tree.Written.of_derives hf).mono (Nat.le_refl _)
        (List.prefix_append _ _).isInfix)
    · obtain ⟨p, hp, rfl⟩ := List.mem_map.1 hu
      have hinfix : p.1 <:+: ts ++ [closer] :=
        (hts.infix_of_mem hp).trans (List.prefix_append _ _).isInfix
      have h := (Tree.Written.of_derives (hparts p hp)).mono (Nat.le_refl _) hinfix
      rw [← List.singleton_append, ← List.append_assoc]
      exact .inl (prefixed _ h (Nat.le_add_right _ 3))
  | literal => cases hu
  | reference => cases hu
  | doBlock _ hb =>
    obtain rfl := List.mem_singleton.1 hu
    exact .inl (prefixed [_] (.of_derives hb) (Nat.le_add_right _ 4))
  | loop _ hb =>
    obtain rfl := List.mem_singleton.1 hu
    exact .inl (prefixed [_] (.of_derives hb) (Nat.le_add_right _ 4))
  | @parenthesized d opener ts T closer _ _ _ ih =>
    rw [Tree.children_withSpan] at hu
    rcases ih hu with h | ⟨s, n, s', rfl, rfl⟩
    · exact .inl (prefixed [opener]
        (h.mono (Nat.le_refl _) (List.prefix_append ts [closer]).isInfix) (Nat.le_add_right _ 4))
    · exact .inr ⟨_, n, s', rfl, rfl⟩
  | @block d opener ends ts parts es t closer _ _ hts hparts _ =>
    obtain ⟨p, hp, rfl⟩ := hts.mem_parts hu
    have hinfix : p.1 <:+: ts ++ [closer] :=
      (hts.infix_of_mem hp).trans (List.prefix_append _ _).isInfix
    have h := (Tree.Written.of_derives (hparts p hp)).mono (Nat.le_refl _) hinfix
    rw [← List.singleton_append, ← List.append_assoc]
    exact .inl (prefixed _ h (Nat.le_succ _))

/-- Everything but a block is a statement of its own. -/
theorem asStatement (h : Derives d x ts T) (hT : ∀ s es t, T ≠ .block s es t) :
    Derives (d + x.callsAbove) statement ts T := by
  have operand : Derives d operand ts T → Derives (d + 1) statement ts T := fun h =>
    .evaluation (Derives.above_of_level (m := 7) (p := 0) h (by decide))
  cases x with
  | statement => exact h
  | expression => exact .evaluation h
  | layer l =>
    rw [← Phrase.level_power l] at h
    exact .evaluation (h.above_of_level l.power_pos)
  | operand => exact operand h
  | application => exact operand (.unsigned h)
  | primary => exact operand (.unsigned (.uncalled h))
  | block =>
    cases h
    exact absurd rfl (hT _ _ _)

/-- What a declaration binds its name to is one call higher than the declaration as a statement. -/
theorem written_initializer {s : Span} {n : String} {V : Tree}
    (h : Derives (d + 1) statement ts (.declaration s n V)) :
    Tree.Written d ts V ∨ ∃ s', V = .literal s' .null := by
  cases h with
  | @declaration _ opener name equal _ v _ _ _ _ hv =>
    exact .inl ((Tree.Written.of_derives hv).mono (Nat.le_refl _)
      (List.suffix_append [opener, name, equal] v).isInfix)
  | bareDeclaration => exact .inr ⟨_, rfl⟩
  | evaluation h => cases (h.begins_of_declaration rfl).1

end Phrase.Derives

namespace Tree.Written

variable {d : Nat} {ts : List Token} {T u : Tree} {path : List Nat}

/-- The nodes of a tree that is written among tokens are written among them as well, apart from the
nulls that declarations without initializers are given. -/
theorem at? (h : Written d ts T) (hu : T.at? path = some u) :
    Written d ts u ∨ T.Implicit path := by
  induction path generalizing u with
  | nil =>
    cases hu
    exact .inl h
  | cons i path ih =>
    obtain ⟨v, hv, hi⟩ := Option.bind_eq_some_iff.1 hu
    rcases ih hv with ⟨x, us, e, hus, he, hderives⟩ | himplicit
    · rcases hderives.written_child (List.mem_of_getElem? hi) with hw | ⟨s, n, s', rfl, rfl⟩
      · exact .inl (hw.mono he hus)
      · cases i with
        | zero => exact .inr ⟨path, s, n, s', rfl, hv⟩
        | succ i => cases hi
    · -- Nothing is below such a null.
      obtain ⟨path', s, n, s', rfl, hparent⟩ := himplicit
      rw [at?_cons hparent] at hv
      cases hv
      cases hi

end Tree.Written

namespace Tree

theorem at?_append (T : Tree) (path path' : List Nat) :
    T.at? (path ++ path') = (T.at? path').bind fun u => u.at? path := by
  induction path with
  | nil => exact (Option.bind_fun_some _).symm
  | cons i path ih =>
    rw [List.cons_append, at?, ih, Option.bind_assoc]
    rfl

/-- Nothing else is such a null. -/
theorem not_implicit {T N : Tree} {path : List Nat} (hN : T.at? path = some N)
    (h : ∀ s, N ≠ .literal s .null) : ¬T.Implicit path := by
  rintro ⟨path', s, n, s', rfl, hparent⟩
  rw [at?_cons hparent] at hN
  exact h s' (Option.some.inj hN).symm

/-- Such a null below a child is one below the root. -/
theorem Implicit.append {T v : Tree} {path : List Nat} {i : Nat} (h : v.Implicit path)
    (hv : T.at? [i] = some v) : T.Implicit (path ++ [i]) := by
  obtain ⟨path', s, n, s', rfl, hparent⟩ := h
  refine ⟨path' ++ [i], s, n, s', rfl, ?_⟩
  rw [at?_append, hv]
  exact hparent

/-- The tree is a declaration of a program, which as a statement would be one call deeper. -/
def Declared (d : Nat) (ts : List Token) (T : Tree) : Prop :=
  ∃ us s n V, us <:+: ts ∧ T = .declaration s n V ∧ Phrase.Derives (d + 1) .statement us T

namespace Declared

variable {d : Nat} {ts : List Token} {T u : Tree} {path : List Nat}

theorem written (h : Declared d ts T) : Written (d + 1) ts T := by
  obtain ⟨us, _, _, _, hus, -, hT⟩ := h
  exact ⟨.statement, us, d + 1, hus, Nat.le_refl _, hT⟩

/-- What is below a declaration of a program is written there like everything else. -/
theorem at? (h : Declared d ts T) (hu : T.at? path = some u) (hpath : path ≠ []) :
    Written d ts u ∨ T.Implicit path := by
  obtain ⟨us, s, n, V, hus, rfl, hT⟩ := h
  obtain rfl | ⟨below, i, rfl⟩ := List.eq_nil_or_concat path
  · exact absurd rfl hpath
  rw [List.concat_eq_append] at hu ⊢
  have hchild := hu
  rw [at?_append] at hchild
  obtain ⟨v, hv, hbelow⟩ := Option.bind_eq_some_iff.1 hchild
  obtain ⟨rfl, rfl⟩ : i = 0 ∧ v = V := by
    cases i with
    | zero => exact ⟨rfl, (Option.some.inj hv).symm⟩
    | succ i => cases hv
  rcases hT.written_initializer with hV | ⟨s', rfl⟩
  · exact ((hV.mono (Nat.le_refl d) hus).at? hbelow).imp_right fun h => h.append hv
  · -- Nothing is below a null.
    cases below with
    | nil => exact .inr ⟨[], s, n, s', rfl, rfl⟩
    | cons j below =>
      obtain ⟨w, hw, hj⟩ := Option.bind_eq_some_iff.1 hbelow
      have hleaf : ∀ {p : List Nat} {x : Tree}, Tree.at? (.literal s' .null) p = some x →
          x = .literal s' .null := by
        intro p x hx
        induction p generalizing x with
        | nil => exact (Option.some.inj hx).symm
        | cons k p ih =>
          obtain ⟨y, hy, hk⟩ := Option.bind_eq_some_iff.1 hx
          obtain rfl := ih hy
          cases hk
      obtain rfl := hleaf hw
      cases hj

end Declared

end Tree

namespace TextUnit.Derives

variable {d : Nat} {u : TextUnit} {ts : List Token} {T v : Tree} {path : List Nat}

/-- A whole text ends with the end of input. What is below the root is written in front of it, and so is
the root itself if it is a single statement. -/
theorem written (h : Derives d u ts T) :
    ∃ us eof, ts = us ++ [eof] ∧
      ((∀ v ∈ T.children, Tree.Written d us v ∨ u = .program ∧ Tree.Declared d us v) ∧
          (∃ s es t, T = .block s es t) ∨
        Tree.Written d us T) := by
  cases h with
  | @program ends ts parts es t eof _ hts hparts hdecl =>
    refine ⟨ends ++ ts, eof, (List.append_assoc ..).symm, .inl ⟨fun v hv => ?_, _, _, _, rfl⟩⟩
    rw [Tree.children, Option.toList_none, List.append_nil] at hv
    obtain ⟨p, hp, rfl⟩ := hts.mem_parts hv
    obtain ⟨s, n, V, heq⟩ := hdecl p hp
    exact .inr ⟨rfl, p.1, s, n, V, (hts.infix_of_mem hp).trans (List.suffix_append _ _).isInfix, heq,
      hparts p hp⟩
  | @single before ts T after eof _ h =>
    refine ⟨before ++ (ts ++ after), eof, ?_, .inr ?_⟩
    · rw [List.append_assoc, List.append_assoc]
    · exact (Tree.Written.of_derives h).mono (Nat.le_refl _)
        ((List.prefix_append ts after).isInfix.trans (List.suffix_append _ _).isInfix)
  | @statements ends ts parts es t eof _ hts hparts =>
    refine ⟨ends ++ ts, eof, (List.append_assoc ..).symm, .inl ⟨fun v hv => ?_, _, _, _, rfl⟩⟩
    obtain ⟨p, hp, rfl⟩ := hts.mem_parts hv
    exact .inl ((Tree.Written.of_derives (hparts p hp)).mono (Nat.le_refl _)
      ((hts.infix_of_mem hp).trans (List.suffix_append _ _).isInfix))

end TextUnit.Derives

namespace Tree

variable {unit : TextUnit} {text : List Char} {T N : Tree} {c : Cursor} {path : List Nat} {n : Nat}

/-- The nodes of a tree that was read are written in the text in front of the end of input, apart from a
block at the root and the nulls that declarations without initializers are given. Only the declarations
of a program may be nested one call more deeply as statements. -/
theorem read_nodes (hread : readWithin n unit text = .ok T c) (hN : T.at? path = some N) :
    ∃ us eof, (Stream.ofText .standard text).tokens = us ++ [eof] ∧
      (∀ t ∈ us, t.kind ≠ .endOfInput) ∧
      ((path = [] ∧ ∃ s es t, T = .block s es t) ∨ T.Implicit path ∨ Written n us N ∨
        unit = .program ∧ path.length = 1 ∧ Written (n + 1) us N) := by
  obtain ⟨-, hT⟩ := read_sound hread
  obtain ⟨us, eof, htokens, hwritten⟩ := hT.written
  refine ⟨us, eof, htokens, (Stream.proper text).kind_ne htokens (List.cons_ne_nil _ _), ?_⟩
  rcases hwritten with ⟨hchildren, s, es, t, rfl⟩ | hwritten
  · -- A path that is not empty begins with the choice of a statement.
    obtain rfl | ⟨below, i, rfl⟩ := List.eq_nil_or_concat path
    · exact .inl ⟨rfl, s, es, t, rfl⟩
    · rw [List.concat_eq_append] at hN ⊢
      rw [at?_append] at hN
      obtain ⟨v, hv, hN⟩ := Option.bind_eq_some_iff.1 hN
      refine .inr ?_
      rcases hchildren v (List.mem_of_getElem? hv) with hw | ⟨hunit, hdeclared⟩
      · exact (hw.at? hN).symm.imp (fun h => h.append hv) .inl
      · by_cases hbelow : below = []
        · subst hbelow
          cases hN
          exact .inr (.inr ⟨hunit, rfl, hdeclared.written⟩)
        · exact (hdeclared.at? hN hbelow).symm.imp (fun h => h.append hv) .inl
  · exact .inr ((hwritten.at? hN).symm.imp_right .inl)

/-- The same for nodes that are no blocks. -/
theorem read_written (hread : readWithin n unit text = .ok T c) (hN : T.at? path = some N)
    (hblock : ∀ s es t, N ≠ .block s es t) (himplicit : ¬T.Implicit path) :
    ∃ us eof, (Stream.ofText .standard text).tokens = us ++ [eof] ∧
      (∀ t ∈ us, t.kind ≠ .endOfInput) ∧
      (Written n us N ∨ unit = .program ∧ path.length = 1 ∧ Written (n + 1) us N) := by
  obtain ⟨us, eof, htokens, hkind, ⟨rfl, s, es, t, rfl⟩ | h | h⟩ := read_nodes hread hN
  · cases hN
    exact absurd rfl (hblock s es t)
  · exact absurd h himplicit
  · exact ⟨us, eof, htokens, hkind, h⟩

/-- The phrase that a node of a tree was read from, apart from a block at the root and the nulls that
declarations without initializers are given. -/
theorem read_phrase (hread : readWithin n unit text = .ok T c) (hN : T.at? path = some N) :
    ∃ us eof, (Stream.ofText .standard text).tokens = us ++ [eof] ∧
      (∀ t ∈ us, t.kind ≠ .endOfInput) ∧
      ((path = [] ∧ ∃ s es t, T = .block s es t) ∨ T.Implicit path ∨
        ∃ x vs d, vs <:+: us ∧ Phrase.Derives d x vs N) := by
  obtain ⟨us, eof, htokens, hkind, h⟩ := read_nodes hread hN
  refine ⟨us, eof, htokens, hkind, h.imp_right (Or.imp_right ?_)⟩
  rintro (⟨x, vs, d, hvs, -, hN⟩ | ⟨-, -, x, vs, d, hvs, -, hN⟩) <;> exact ⟨x, vs, d, hvs, hN⟩

/-- The same for nodes that are no blocks. -/
theorem read_derives (hread : readWithin n unit text = .ok T c) (hN : T.at? path = some N)
    (hblock : ∀ s es t, N ≠ .block s es t) (himplicit : ¬T.Implicit path) :
    ∃ us eof, (Stream.ofText .standard text).tokens = us ++ [eof] ∧
      (∀ t ∈ us, t.kind ≠ .endOfInput) ∧
      ∃ x vs d, vs <:+: us ∧ Phrase.Derives d x vs N := by
  obtain ⟨us, eof, htokens, hkind, ⟨rfl, s, es, t, rfl⟩ | h | h⟩ := read_phrase hread hN
  · cases hN
    exact absurd rfl (hblock s es t)
  · exact absurd h himplicit
  · exact ⟨us, eof, htokens, hkind, h⟩

/-- The text under a node that is written in a text is read as this node. -/
theorem Written.read_alone {d : Nat} {us : List Token} {eof : Token}
    (htokens : (Stream.ofText .standard text).tokens = us ++ [eof])
    (hkind : ∀ t ∈ us, t.kind ≠ .endOfInput) (h : Written d us N)
    (hblock : ∀ s es t, N ≠ .block s es t) :
    ∃ N', Similar (Span.Shifted N.span.start) N' N ∧
      ∃ c', readWithin d .single (N.span.slice text) = .ok N' c' := by
  obtain ⟨x, vs, e, ⟨before, after, hinfix⟩, he, hderives⟩ := h
  have hstatement := (hderives.asStatement hblock).mono he
  have htokens' : (Stream.ofText .standard text).tokens = before ++ (vs ++ (after ++ [eof])) := by
    rw [htokens, ← hinfix, List.append_assoc, List.append_assoc]
  have hlegible : Legible vs := by
    have := Stream.legible text
    rw [htokens'] at this
    exact (this.right before).left _
  have hslice := Stream.ofText_slice htokens' (hderives.covers hlegible) fun t ht =>
    hkind t (by rw [← hinfix]; simp [ht])
  -- The tokens of the part are those in the text, that much further to the left.
  have hshift : (Stream.ofText .standard (N.span.slice text)).tokens.map
      (fun t => t.shift N.span.start) = vs ++ [.endOfInput N.span.stop] :=
    congrArg Stream.tokens hslice
  have hback := Token.similar_map_unshift (Stream.ofText .standard (N.span.slice text)).tokens
    N.span.start
  rw [hshift] at hback
  obtain ⟨vs', end', htokens'', hvs, hend⟩ := forall₂_append_cases hback
  obtain _ | ⟨heof, _ | _⟩ := hend
  obtain ⟨N', hN', hsimilar⟩ := hstatement.transport (Span.unshifted_joins _) hvs
  have hsingle := TextUnit.Derives.single .nil hN' .nil (heof.kind_eq rfl)
  rw [List.nil_append, List.nil_append, ← htokens''] at hsingle
  exact ⟨N', hsimilar.symm fun _ _ h => h, read_of_derives hsingle⟩

/-- **Spans are faithful**: the text under a node of a tree that was read, read alone as a single
statement, is this node, with all spans counted from the beginning of the node. Blocks are no statements,
and the null that a declaration without an initializer is given stands for no text. This takes no more
room than reading the tree did. Only a declaration of a program is one call deeper as a statement, so that
there may be no room for it where the program was just small enough. -/
theorem read_slice (hread : readWithin n unit text = .ok T c) (hN : T.at? path = some N)
    (hblock : ∀ s es t, N ≠ .block s es t) (himplicit : ¬T.Implicit path) :
    ∃ N', Similar (Span.Shifted N.span.start) N' N ∧
      ((∃ c', readWithin n .single (N.span.slice text) = .ok N' c') ∨
        unit = .program ∧ path.length = 1 ∧
          (∃ c', readWithin n .single (N.span.slice text) = .error .tooDeep c') ∧
          ∃ c', readWithin (n + 1) .single (N.span.slice text) = .ok N' c') := by
  obtain ⟨us, eof, htokens, hkind, h⟩ := read_written hread hN hblock himplicit
  rcases h with h | ⟨hunit, hpath, h⟩
  · obtain ⟨N', hsimilar, hN'⟩ := h.read_alone htokens hkind hblock
    exact ⟨N', hsimilar, .inl hN'⟩
  · obtain ⟨N', hsimilar, hN'⟩ := h.read_alone htokens hkind hblock
    exact ⟨N', hsimilar, (read_deep_or n hN').symm.imp_right fun hdeep => ⟨hunit, hpath, hdeep, hN'⟩⟩

/-- A declaration with as many signs in front of its value as a program may have there. -/
def deepDeclaration : List Char := "var x = ".toList ++ (List.replicate 996 '-' ++ ['1'])

/-- Read alone as a statement, this declaration is nested too deeply. -/
theorem read_slice_too_deep :
    ∃ T c N, read .program deepDeclaration = .ok T c ∧ T.at? [0] = some N ∧
      (∀ s es t, N ≠ .block s es t) ∧ ¬T.Implicit [0] ∧
      ∃ c', read .single (N.span.slice deepDeclaration) = .error .tooDeep c' := by
  have hfound : ((Cursor.result? (read .program deepDeclaration)).bind fun T =>
      (T.at? [0]).map fun N => (T.kindName, N.kindName, N.span)) =
        some ("Block", "Declaration", .ofLength 0 1005) := by decide +kernel
  have hslice : (Span.ofLength 0 1005).slice deepDeclaration = deepDeclaration := by decide +kernel
  have hdeep : Cursor.fault? (read .single deepDeclaration) = some .tooDeep := by decide +kernel
  obtain ⟨T, hT, hnode⟩ := Option.bind_eq_some_iff.1 hfound
  obtain ⟨N, hN, hnode⟩ := Option.map_eq_some_iff.1 hnode
  obtain ⟨hroot, hkind, hspan⟩ : T.kindName = "Block" ∧ N.kindName = "Declaration" ∧
      N.span = .ofLength 0 1005 := by
    simpa only [Prod.mk.injEq] using hnode
  obtain ⟨c, h⟩ := Cursor.exists_of_result? hT
  obtain ⟨c', h'⟩ := Cursor.exists_of_fault? hdeep
  refine ⟨T, c, N, h, hN, ?_, ?_, c', by rw [hspan, hslice]; exact h'⟩
  · rintro s es t rfl
    exact absurd (show "Block" = "Declaration" from hkind) (by decide)
  · rintro ⟨_, s, n, s', hpath, hparent⟩
    cases hpath
    cases hparent
    exact absurd (show "Declaration" = "Block" from hroot) (by decide)

/-- An operand in parentheses, read alone. -/
theorem read_slice_parenthesized :
    ∃ T c N, read .statements "x = y * (z or true)".toList = .ok T c ∧ T.at? [1, 0, 0] = some N ∧
      (∀ s es t, N ≠ .block s es t) ∧ ¬T.Implicit [1, 0, 0] ∧
      ∃ N', Similar (Span.Shifted N.span.start) N' N ∧
        ∃ c', read .single (N.span.slice "x = y * (z or true)".toList) = .ok N' c' := by
  have hfound : ((Cursor.result? (read .statements "x = y * (z or true)".toList)).bind fun T =>
      (T.at? [1, 0, 0]).map kindName) = some "BinaryExpr" := by decide +kernel
  obtain ⟨T, hT, hkind⟩ := Option.bind_eq_some_iff.1 hfound
  obtain ⟨N, hN, hkind⟩ := Option.map_eq_some_iff.1 hkind
  obtain ⟨c, h⟩ := Cursor.exists_of_result? hT
  have hblock : ∀ s es t, N ≠ .block s es t := by
    rintro s es t rfl
    have : "Block" ≠ "BinaryExpr" := by decide
    exact this hkind
  have himplicit : ¬T.Implicit [1, 0, 0] := by
    rintro ⟨path', s, n, s', hpath, -⟩
    cases hpath
  obtain ⟨N', hsimilar, hN'⟩ := read_slice h hN hblock himplicit
  exact ⟨T, c, N, h, hN, hblock, himplicit, N', hsimilar, hN'.resolve_right fun h => nomatch h.1⟩

end Tree

end Curly
