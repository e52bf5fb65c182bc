import Curly.Proofs.Token.Sequence

/-!
# What tokens say

What tokens say apart from their layout: their kinds, where two spellings of an operator count as one
kind, and their payloads. Of ends of line that follow one another only the first one says anything.

## Main definitions

* `TokenKind.plain`, `TokenKind.Alias`: the spellings of an operator.
* `Token.gist`, `gists`: what a token and what some tokens say.
* `Corresponds`: the tokens that stand at the same place in two sequences that say the same.
* `Matches`: two sequences that say the same, token by token.

## Main statements

* `matches_of_gists`: sequences that say the same match, and the tokens that match correspond.
-/

namespace Curly

namespace TokenKind

/-- The kind, with one spelling for the operators that have two. -/
def plain : TokenKind → TokenKind
  | ampersand => andWord
  | pipe => orWord
  | bang => notWord
  | k => k

/-- The kinds of operators that have two spellings. -/
def hasAlias : TokenKind → Bool
  | ampersand | andWord | pipe | orWord | bang | notWord => true
  | _ => false

/-- The kinds are equal, or they are the two spellings of an operator. -/
inductive Alias : TokenKind → TokenKind → Prop where
  | same (k) : Alias k k
  | ampersand : Alias .ampersand .andWord
  | andWord : Alias .andWord .ampersand
  | pipe : Alias .pipe .orWord
  | orWord : Alias .orWord .pipe
  | bang : Alias .bang .notWord
  | notWord : Alias .notWord .bang

namespace Alias

variable {k k' x : TokenKind}

theorem of_plain (h : k.plain = k'.plain) : Alias k k' := by
  unfold plain at h
  split at h <;> split at h <;> first
    | exact .same _
    | cases h <;> first | exact .same _ | constructor

/-- Only a kind with two spellings has an alias. -/
theorem eq_iff (h : Alias k k') (hx : x.hasAlias = false) : k = x ↔ k' = x := by
  cases h with
  | same => exact Iff.rfl
  | _ =>
    refine Iff.intro (fun h => ?_) fun h => ?_
    · subst h
      cases hx
    · subst h
      cases hx

theorem beq_eq (h : Alias k k') (hx : x.hasAlias = false) : (k == x) = (k' == x) :=
  Bool.eq_iff_iff.2 (by rw [beq_iff_eq, beq_iff_eq, h.eq_iff hx])

end Alias

end TokenKind

/-- What a token says: its kind, whatever its spelling, and its payload. -/
def Token.gist (t : Token) : TokenKind × Payload := (t.kind.plain, t.payload)

/-- What tokens say that stand behind an end of line or, if `inRun` is false, behind something else. -/
def gistsFrom (inRun : Bool) : List Token → List (TokenKind × Payload)
  | [] => []
  | t :: ts =>
    if t.kind = .endOfLine then
      if inRun then gistsFrom true ts else t.gist :: gistsFrom true ts
    else t.gist :: gistsFrom false ts

/-- What tokens say. Ends of line that follow one another say what one of them says. -/
def gists (ts : List Token) : List (TokenKind × Payload) := gistsFrom false ts

/-- The tokens stand behind tokens that say the same, and say the same themselves. -/
def Corresponds (ts ts' : List Token) (t t' : Token) : Prop :=
  ∃ before before' after after', ts = before ++ t :: after ∧ ts' = before' ++ t' :: after' ∧
    gists before = gists before' ∧ t.gist = t'.gist

/-- The tokens are related by `K` and say the same. -/
structure Token.Paired (K : Token → Token → Prop) (t t' : Token) : Prop where
  related : K t t'
  kind : TokenKind.Alias t.kind t'.kind
  payload : t.payload = t'.payload

/-- The tokens match one by one and are related by `K`, except that there may be more ends of line on one
side than on the other behind an end of line. Behind an end of line is also the beginning if `inRun` is
true. -/
inductive Matches (K : Token → Token → Prop) : (inRun : Bool) → List Token → List Token → Prop where
  | nil {inRun} : Matches K inRun [] []
  | token {inRun t t' ts ts'} (ht : t.Paired K t') (hk : t.kind ≠ .endOfLine)
      (h : Matches K false ts ts') : Matches K inRun (t :: ts) (t' :: ts')
  | line {t t' ts ts'} (ht : t.Paired K t') (hk : t.kind = .endOfLine) (h : Matches K true ts ts') :
      Matches K false (t :: ts) (t' :: ts')
  | left {t ts ts'} (hk : t.kind = .endOfLine) (h : Matches K true ts ts') :
      Matches K true (t :: ts) ts'
  | right {t' ts ts'} (hk : t'.kind = .endOfLine) (h : Matches K true ts ts') :
      Matches K true ts (t' :: ts')

namespace Token.Paired

variable {K : Token → Token → Prop} {t t' : Token} {k : TokenKind}

theorem kind_iff (h : t.Paired K t') (hk : k.hasAlias = false) : t.kind = k ↔ t'.kind = k :=
  h.kind.eq_iff hk

theorem kind_eq (h : t.Paired K t') (ht : t.kind = k) (hk : k.hasAlias = false) : t'.kind = k :=
  (h.kind_iff hk).1 ht

theorem kind_ne (h : t.Paired K t') (ht : t.kind ≠ k) (hk : k.hasAlias = false) : t'.kind ≠ k :=
  fun ht' => ht ((h.kind_iff hk).2 ht')

theorem refl (hK : K t t) : t.Paired K t := ⟨hK, .same _, rfl⟩

end Token.Paired

namespace Matches

variable {K : Token → Token → Prop} {inRun : Bool} {t t' : Token} {ts ts' : List Token}

/-- Tokens match themselves. -/
theorem refl (hK : ∀ t, K t t) (ts : List Token) : Matches K false ts ts := by
  have both : Matches K false ts ts ∧ Matches K true ts ts := by
    induction ts with
    | nil => exact ⟨.nil, .nil⟩
    | cons t ts ih =>
      by_cases hk : t.kind = .endOfLine
      · exact ⟨.line (.refl (hK t)) hk ih.2, .left hk (.right hk ih.2)⟩
      · exact ⟨.token (.refl (hK t)) hk ih.1, .token (.refl (hK t)) hk ih.1⟩
  exact both.1

/-- The first tokens are a pair, and so what is behind them matches. -/
theorem cons (h : Matches K false (t :: ts) (t' :: ts')) :
    t.Paired K t' ∧ Matches K (t.kind == .endOfLine) ts ts' := by
  cases h with
  | token ht hk h => exact ⟨ht, by rwa [beq_eq_false_iff_ne.2 hk]⟩
  | line ht hk h => exact ⟨ht, by rwa [hk]⟩

theorem eq_nil (h : Matches K false [] ts') : ts' = [] := by
  cases h with
  | nil => rfl

theorem exists_cons (h : Matches K false (t :: ts) ts') : ∃ t' us', ts' = t' :: us' := by
  cases h with
  | token => exact ⟨_, _, rfl⟩
  | line => exact ⟨_, _, rfl⟩

end Matches

section

variable {inRun : Bool} {t : Token} {ts us : List Token}

/-- Whether some tokens end with an end of line. If there are none, `inRun` tells. -/
def endsInRun (inRun : Bool) : List Token → Bool
  | [] => inRun
  | t :: ts => endsInRun (t.kind == .endOfLine) ts

theorem endsInRun_concat (inRun : Bool) (ts : List Token) (t : Token) :
    endsInRun inRun (ts ++ [t]) = (t.kind == .endOfLine) := by
  induction ts generalizing inRun with
  | nil => rfl
  | cons u ts ih => exact ih _

/-- An end of line in a run of them says nothing. -/
theorem gistsFrom_skip (ht : t.kind = .endOfLine) (ts : List Token) :
    gistsFrom true (t :: ts) = gistsFrom true ts := by
  rw [gistsFrom, if_pos ht, if_pos rfl]

/-- Every other token says something. -/
theorem gistsFrom_cons (h : t.kind = .endOfLine → inRun = false) (ts : List Token) :
    gistsFrom inRun (t :: ts) = t.gist :: gistsFrom (t.kind == .endOfLine) ts := by
  by_cases ht : t.kind = .endOfLine
  · rw [gistsFrom, if_pos ht, h ht, ht]
    rfl
  · rw [gistsFrom, if_neg ht, beq_eq_false_iff_ne.2 ht]

theorem gistsFrom_append (inRun : Bool) (ts us : List Token) :
    gistsFrom inRun (ts ++ us) = gistsFrom inRun ts ++ gistsFrom (endsInRun inRun ts) us := by
  induction ts generalizing inRun with
  | nil => rfl
  | cons t ts ih =>
    by_cases h : t.kind = .endOfLine → inRun = false
    · rw [List.cons_append, gistsFrom_cons h, gistsFrom_cons h, ih]
      rfl
    · obtain ⟨ht, hrun⟩ := Classical.not_imp.1 h
      rw [Bool.not_eq_false] at hrun
      rw [List.cons_append, hrun, gistsFrom_skip ht, gistsFrom_skip ht, ih, endsInRun, ht]
      rfl

end

/-- The next token is an end of line in a run of them. -/
def Skips (inRun : Bool) (ts : List Token) : Prop :=
  ∃ t us, ts = t :: us ∧ t.kind = .endOfLine ∧ inRun = true

theorem gistsFrom_of_not_skips {inRun : Bool} {t : Token} {us : List Token}
    (h : ¬ Skips inRun (t :: us)) :
    gistsFrom inRun (t :: us) = t.gist :: gistsFrom (t.kind == .endOfLine) us :=
  gistsFrom_cons (fun ht => Bool.eq_false_iff.2 fun hrun => h ⟨t, us, rfl, ht, hrun⟩) us

/-- What stands before the next token, with this token. -/
structure Behind (inRun : Bool) (before before' : List Token) : Prop where
  run : endsInRun false before = inRun
  run' : endsInRun false before' = inRun
  gists : gists before = gists before'

namespace Behind

variable {inRun : Bool} {before before' : List Token} {t t' : Token}

theorem nil : Behind false [] [] := ⟨rfl, rfl, rfl⟩

theorem symm (h : Behind inRun before before') : Behind inRun before' before :=
  ⟨h.run', h.run, h.gists.symm⟩

/-- An end of line in a run of them on one side. -/
theorem skip (h : Behind true before before') (ht : t.kind = .endOfLine) :
    Behind true (before ++ [t]) before' where
  run := by
    rw [endsInRun_concat, ht]
    rfl
  run' := h.run'
  gists := by
    rw [Curly.gists, gistsFrom_append, h.run, gistsFrom_skip ht]
    exact (List.append_nil _).trans h.gists

/-- Tokens on both sides that say the same. -/
theorem concat (h : Behind inRun before before') (ht : t.kind = .endOfLine → inRun = false)
    (hgist : t.gist = t'.gist) (hkind : t'.kind = .endOfLine ↔ t.kind = .endOfLine) :
    Behind (t.kind == .endOfLine) (before ++ [t]) (before' ++ [t']) where
  run := endsInRun_concat ..
  run' := by
    rw [endsInRun_concat]
    exact Bool.eq_iff_iff.2 (by rw [beq_iff_eq, beq_iff_eq, hkind])
  gists := by
    have hsays := gistsFrom_cons ht []
    have hsays' := gistsFrom_cons (fun h => ht (hkind.1 h)) []
    have hprefix : gistsFrom false before = gistsFrom false before' := h.gists
    rw [Curly.gists, Curly.gists, gistsFrom_append, gistsFrom_append, h.run, h.run', hsays, hsays',
      hgist, hprefix]
    rfl

end Behind

/-- Sequences that go on to say the same match. The induction is on the tokens of both sides together,
since in a run of ends of line one side may go on alone. -/
theorem matches_of_gistsFrom {all all' : List Token} (n : Nat) {before before' ts ts' : List Token}
    {inRun : Bool} (hn : ts.length + ts'.length ≤ n) (hall : all = before ++ ts)
    (hall' : all' = before' ++ ts') (hbefore : Behind inRun before before')
    (h : gistsFrom inRun ts = gistsFrom inRun ts') : Matches (Corresponds all all') inRun ts ts' := by
  induction n generalizing before before' ts ts' inRun with
  | zero =>
    obtain rfl : ts = [] := List.eq_nil_of_length_eq_zero (by omega)
    obtain rfl : ts' = [] := List.eq_nil_of_length_eq_zero (by omega)
    exact .nil
  | succ n ih =>
    have grow : ∀ {before ts : List Token} {t : Token} {all : List Token}, all = before ++ t :: ts →
        all = (before ++ [t]) ++ ts := fun h => by rw [h, List.append_assoc, List.singleton_append]
    by_cases hskip : Skips inRun ts
    · obtain ⟨t, us, rfl, ht, rfl⟩ := hskip
      rw [gistsFrom_skip ht] at h
      rw [List.length_cons] at hn
      exact .left ht (ih (by omega) (grow hall) hall' (hbefore.skip ht) h)
    by_cases hskip' : Skips inRun ts'
    · obtain ⟨t, us, rfl, ht, rfl⟩ := hskip'
      rw [gistsFrom_skip ht] at h
      rw [List.length_cons] at hn
      exact .right ht (ih (by omega) hall (grow hall') (hbefore.symm.skip ht).symm h)
    cases ts with
    | nil =>
      cases ts' with
      | nil => exact .nil
      | cons t' us' =>
        rw [gistsFrom_of_not_skips hskip'] at h
        cases h
    | cons t us =>
      rw [gistsFrom_of_not_skips hskip] at h
      cases ts' with
      | nil => cases h
      | cons t' us' =>
        rw [gistsFrom_of_not_skips hskip'] at h
        obtain ⟨hgist, hrest⟩ := List.cons.inj h
        have ht : t.Paired (Corresponds all all') t' :=
          ⟨⟨before, before', us, us', hall, hall', hbefore.gists, hgist⟩,
            .of_plain (congrArg Prod.fst hgist), congrArg Prod.snd hgist⟩
        have hline : t.kind = .endOfLine → inRun = false :=
          fun hk => Bool.eq_false_iff.2 fun hrun => hskip ⟨t, us, rfl, hk, hrun⟩
        rw [← ht.kind.beq_eq rfl] at hrest
        rw [List.length_cons, List.length_cons] at hn
        have hmatches := ih (by omega) (grow hall) (grow hall')
          (hbefore.concat hline hgist (ht.kind_iff rfl).symm) hrest
        by_cases hk : t.kind = .endOfLine
        · rw [hk] at hmatches
          obtain rfl := hline hk
          exact .line ht hk hmatches
        · rw [beq_eq_false_iff_ne.2 hk] at hmatches
          exact .token ht hk hmatches

/-- Sequences that say the same match, and the tokens that match correspond. -/
theorem matches_of_gists {ts ts' : List Token} (h : gists ts = gists ts') :
    Matches (Corresponds ts ts') false ts ts' :=
  matches_of_gistsFrom _ (Nat.le_refl _) rfl rfl .nil h

end Curly
