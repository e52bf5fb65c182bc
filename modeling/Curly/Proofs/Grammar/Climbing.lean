import Curly.Proofs.Grammar.Completeness

/-!
# Precedence climbing

Under a table with operators of any binding powers, a chain of operands and operators is read as the tree
that comes of splitting it again and again at the last of its weakest operators.

Reading goes from left to right and never looks for the weakest operator. What it has read so far is
grouped already, and no operator in it is weaker than the one that comes next. The right operand of an
operator is read at a greater power, so that reading goes as deep as there are powers, however long the
chain is.

## Main definitions

* `Table.OfLevels`: a table whose operators are those of given levels.
* `Link`: an operator and the operand behind it.
* `Groups`: the tree of a chain.
* `Divides`: the links that the right operand of an operator takes in, and those that it leaves.

## Main statements

* `Groups.unique`: a chain has one tree.
* `Rule.climbing_reads`: what the loop over a chain comes to.
* `Setting.expression_reads_chain`: an expression is read up to the first operator that is too weak.
-/

namespace Curly

open Cursor

namespace Table

/-- The binary operators of a table are those of the levels, the weakest first, and its other operators
are those of the language. -/
structure OfLevels (table : Table) (levels : List (List TokenKind)) : Prop where
  operators : ∀ kinds ∈ levels, ∀ k ∈ kinds, (BinaryOperator.ofKind? k).isSome
  bindingPowers : table.bindingPowers = powersOfLevels levels
  unary : table.unary = standard.unary

/-- The binding power of a kind, zero if it does not join operands. -/
def power (table : Table) (k : TokenKind) : Nat := (table.bindingPower? k).getD 0

theorem assign_keys {α β : Type} [DecidableEq α] {P : α → Prop} {key : α} {value : β}
    {l : List (α × β)} (hkey : P key) (h : ∀ e ∈ l, P e.1) : ∀ e ∈ assign key value l, P e.1 := by
  induction l with
  | nil => simpa [assign] using hkey
  | cons e l ih =>
    have hl := fun e' he' => h e' (List.mem_cons_of_mem _ he')
    unfold assign
    split
    · exact List.forall_mem_cons.2 ⟨hkey, hl⟩
    · exact List.forall_mem_cons.2 ⟨h e (List.mem_cons_self ..), ih hl⟩

/-- Only the kinds of the levels have binding powers. -/
theorem powersOfLevels_keys {P : TokenKind → Prop} {levels : List (List TokenKind)}
    (h : ∀ kinds ∈ levels, ∀ k ∈ kinds, P k) : ∀ e ∈ powersOfLevels levels, P e.1 := by
  let Known (powers : List (TokenKind × Nat)) : Prop := ∀ e ∈ powers, P e.1
  have hnil : Known [] := fun e he => absurd he (by simp)
  refine List.foldlRecOn (motive := Known) levels.zipIdx _ hnil fun powers hpowers l hl => ?_
  refine List.foldlRecOn (motive := Known) l.1 _ hpowers fun powers hpowers k hk => ?_
  have hlevel : l.1 ∈ levels := (List.mem_zipIdx' hl).2 ▸ List.getElem_mem _
  exact assign_keys (h l.1 hlevel k hk) hpowers

/-- What joins operands is an operator. -/
theorem OfLevels.isSome_of_bindingPower? {table : Table} {levels : List (List TokenKind)}
    (h : table.OfLevels levels) {k : TokenKind} {p : Nat} (hk : table.bindingPower? k = some p) :
    (BinaryOperator.ofKind? k).isSome := by
  rw [bindingPower?, h.bindingPowers] at hk
  obtain ⟨before, after, hsplit, -⟩ := List.lookup_eq_some_iff.1 hk
  exact powersOfLevels_keys h.operators (k, p) (hsplit ▸ by simp)

/-- The kinds that bind stronger than a power. -/
def kindsAbove (table : Table) (m : Nat) : List TokenKind :=
  TokenKind.all.filter fun k => m < table.power k

/-- There are fewer and fewer powers to climb to. -/
theorem length_kindsAbove_lt {table : Table} {m : Nat} {k : TokenKind} (h : m < table.power k) :
    (table.kindsAbove (table.power k)).length < (table.kindsAbove m).length := by
  have hfilter : table.kindsAbove (table.power k) =
      (table.kindsAbove m).filter fun k' => table.power k < table.power k' := by
    rw [kindsAbove, kindsAbove, List.filter_filter]
    refine List.filter_congr fun k' _ => ?_
    rw [Bool.eq_iff_iff, Bool.and_eq_true, decide_eq_true_iff, decide_eq_true_iff]
    exact ⟨fun hk' => ⟨hk', Nat.lt_trans h hk'⟩, fun hk' => hk'.1⟩
  rw [hfilter, List.length_filter_lt_length_iff_exists]
  exact ⟨k, List.mem_filter.2 ⟨TokenKind.mem_all k, by simpa using h⟩, by simp⟩

theorem length_kindsAbove_le (table : Table) (m : Nat) :
    (table.kindsAbove m).length ≤ TokenKind.all.length := List.length_filter_le ..


end Table

/-- The kinds of the operands that are one token each. -/
def TokenKind.isAtom : TokenKind → Bool
  | .identifier | .number | .string | .trueWord | .falseWord => true
  | _ => false

/-- The tree of an operand that is one token. -/
def Token.leaf (t : Token) : Tree :=
  match t.kind with
  | .identifier => Rule.referenceTo t
  | .trueWord => .literal t.span (.bool true)
  | .falseWord => .literal t.span (.bool false)
  | _ => .literal t.span (Rule.valueOf t)

/-- An operator between operands and the operand behind it. -/
structure Link where
  operator : Token
  operand : Token

namespace Link

/-- The tokens of a chain behind its first operand. -/
def tokens : List Link → List Token
  | [] => []
  | l :: links => l.operator :: l.operand :: tokens links

theorem length_tokens (links : List Link) : (tokens links).length = 2 * links.length := by
  induction links with
  | nil => rfl
  | cons l links ih =>
    simp only [tokens, List.length_cons, ih]
    omega

/-- How strongly the operator of a link binds. -/
def power (table : Table) (l : Link) : Nat := table.power l.operator.kind

/-- The operator of a link joins operands, and its operand is one token. -/
structure Fits (table : Table) (l : Link) : Prop where
  operator : (table.bindingPower? l.operator.kind).isSome
  operand : l.operand.kind.isAtom = true

end Link

/-- The tree of a chain of operands and operators. A chain that is longer than one operand is split at the
last of its weakest operators, and so are both its parts. -/
inductive Groups (table : Table) : Token → List Link → Tree → Prop where
  | leaf (first : Token) : Groups table first [] first.leaf
  | split {first : Token} {before after : List Link} {weakest : Link} {o : BinaryOperator}
      {left right : Tree} (hbefore : ∀ l ∈ before, weakest.power table ≤ l.power table)
      (hafter : ∀ l ∈ after, weakest.power table < l.power table)
      (ho : BinaryOperator.ofKind? weakest.operator.kind = some o)
      (hleft : Groups table first before left) (hright : Groups table weakest.operand after right) :
      Groups table first (before ++ weakest :: after)
        (.binary (left.span.union right.span) o left right)

section

variable {table : Table} {first : Token} {before before' after after' links : List Link}
  {weakest weakest' : Link} {T T' : Tree}

/-- The last of the weakest links does not stand before another last of the weakest. -/
theorem eq_nil_of_split {between : List Link} (hafter : ∀ l ∈ after, weakest.power table < l.power table)
    (hbefore' : ∀ l ∈ before ++ between, weakest'.power table ≤ l.power table)
    (h : weakest :: after = between ++ weakest' :: after') : between = [] := by
  cases between with
  | nil => rfl
  | cons l between =>
    obtain ⟨rfl, rfl⟩ := List.cons.inj h
    have hlt := hafter weakest' (by simp)
    have hle := hbefore' weakest (by simp)
    omega

/-- A chain has one last of its weakest links. -/
theorem split_unique (hbefore : ∀ l ∈ before, weakest.power table ≤ l.power table)
    (hafter : ∀ l ∈ after, weakest.power table < l.power table)
    (hbefore' : ∀ l ∈ before', weakest'.power table ≤ l.power table)
    (hafter' : ∀ l ∈ after', weakest'.power table < l.power table)
    (h : before ++ weakest :: after = before' ++ weakest' :: after') :
    before = before' ∧ weakest = weakest' ∧ after = after' := by
  rcases List.append_eq_append_iff.1 h with ⟨between, rfl, hrest⟩ | ⟨between, rfl, hrest⟩
  · obtain rfl := eq_nil_of_split hafter hbefore' hrest
    exact ⟨(List.append_nil _).symm, List.cons.inj hrest⟩
  · obtain rfl := eq_nil_of_split hafter' hbefore hrest
    obtain ⟨rfl, rfl⟩ := List.cons.inj hrest
    exact ⟨List.append_nil _, rfl, rfl⟩

/-- A chain has one tree. -/
theorem Groups.unique (h : Groups table first links T) (h' : Groups table first links T') :
    T = T' := by
  induction h generalizing T' with
  | leaf first =>
    generalize hlinks : ([] : List Link) = links at h'
    cases h' with
    | leaf => rfl
    | split => exact absurd hlinks (by simp)
  | @split first before after weakest o left right hbefore hafter ho _ _ ihleft ihright =>
    generalize hlinks : before ++ weakest :: after = links at h'
    cases h' with
    | leaf => exact absurd hlinks (by simp)
    | split hbefore' hafter' ho' hleft' hright' =>
      obtain ⟨rfl, rfl, rfl⟩ := split_unique hbefore hafter hbefore' hafter' hlinks
      obtain rfl := ihleft hleft'
      obtain rfl := ihright hright'
      rw [ho] at ho'
      cases ho'
      rfl

end

/-- The links that an operand above `p` takes in, and those that it leaves. -/
structure Divides (table : Table) (p : Nat) (links near far : List Link) : Prop where
  append : links = near ++ far
  stronger : ∀ l ∈ near, p < l.power table
  weaker : ∀ next ∈ far.head?, next.power table ≤ p

namespace Divides

variable {table : Table} {p m : Nat} {l : Link} {links near far before : List Link}

theorem takeWhile_dropWhile (table : Table) (p : Nat) (links : List Link) :
    Divides table p links (links.takeWhile fun l => p < l.power table)
      (links.dropWhile fun l => p < l.power table) where
  append := List.takeWhile_append_dropWhile.symm
  stronger l hl := by simpa using List.all_eq_true.1 List.all_takeWhile l hl
  weaker next hnext := by
    have hhead := List.head?_dropWhile_not (fun l : Link => decide (p < l.power table)) links
    rw [Option.mem_def.1 hnext] at hhead
    simpa using hhead

/-- What an operand takes in is also taken in above a smaller power. -/
theorem takeWhile_eq (h : Divides table p links near far) (hmp : m ≤ p) :
    (links.takeWhile fun l => m < l.power table) =
      near ++ far.takeWhile fun l => m < l.power table := by
  rw [h.append, List.takeWhile_append_of_pos]
  exact fun l hl => by simpa using Nat.lt_of_le_of_lt hmp (h.stronger l hl)

theorem dropWhile_eq (h : Divides table p links near far) (hmp : m ≤ p) :
    (links.dropWhile fun l => m < l.power table) = far.dropWhile fun l => m < l.power table := by
  rw [h.append, List.dropWhile_append_of_pos]
  exact fun l hl => by simpa using Nat.lt_of_le_of_lt hmp (h.stronger l hl)

/-- The next link behind the right operand of `l` is not stronger than anything before it. -/
theorem next_le (h : Divides table (l.power table) links near far)
    (hbefore : ∀ l' ∈ before, l.power table ≤ l'.power table) :
    ∀ next ∈ far.head?, ∀ l' ∈ before ++ l :: near, next.power table ≤ l'.power table := by
  intro next hnext l' hl'
  refine Nat.le_trans (h.weaker next hnext) ?_
  rcases List.mem_append.1 hl' with hl' | hl'
  · exact hbefore l' hl'
  · rcases List.mem_cons.1 hl' with rfl | hl'
    · exact Nat.le_refl _
    · exact Nat.le_of_lt (h.stronger l' hl')

end Divides

namespace Rule

variable {S : Setting} {r : Rules} {t : Token} {rest : List Token}

theorem primary_reads_atom (h : t.kind.isAtom = true) :
    Reads (primary r) (t :: rest) t.leaf rest := by
  have hadvance : Reads advance (t :: rest) t rest := Reads.advance fun hk => by
    rw [hk] at h
    exact absurd h (by decide)
  refine Reads.peek.bind ?_
  unfold Token.leaf
  generalize t.kind = k at h
  cases k <;> first | exact hadvance.bind Reads.pure | exact absurd h (by decide)

/-- A token that neither opens parentheses nor is missing ends an operand of one token. -/
theorem operand_reads_atom {u : Token} (hunary : S.table.unary = Table.standard.unary)
    (h : t.kind.isAtom = true) (hu : u.kind ≠ .leftParen) (hrounds : 0 < S.rounds) {d : Nat}
    (hd : 2 ≤ d) : Reads (rulesAt S d).operand (t :: u :: rest) t.leaf (u :: rest) := by
  obtain ⟨d, rfl⟩ := Nat.exists_eq_add_of_le' hd
  have hnone : S.table.unary? t.kind = none := by
    rw [Table.unary?, hunary]
    generalize t.kind = k at h
    cases k <;> first | rfl | exact absurd h (by decide)
  refine Reads.peek.bind ?_
  rw [hnone]
  have hprimary : Reads (rulesAt S (d + 1)).primary (t :: u :: rest) t.leaf (u :: rest) :=
    primary_reads_atom h
  exact hprimary.bind (Reads.repeatUpTo_stop (callStep_stops hu) hrounds)

end Rule

/-- What ends a chain. -/
def Token.EndsChain (t : Token) : Prop := t.kind = .endOfLine ∨ t.kind = .endOfInput

/-- The rules read a chain up to the first operator that does not bind stronger than `m`. -/
def ReadsChains (S : Setting) (r : Rules) (stop : Token) (rest : List Token) (m : Nat) : Prop :=
  ∀ (first : Token) (links : List Link), first.kind.isAtom = true →
    (∀ l ∈ links, l.Fits S.table) → links.length < S.rounds →
    ∃ T, Groups S.table first (links.takeWhile fun l => m < l.power S.table) T ∧
      Reads (r.expression m) (first :: (Link.tokens links ++ stop :: rest)) T
        (Link.tokens (links.dropWhile fun l => m < l.power S.table) ++ stop :: rest)

section

variable {S : Setting} {levels : List (List TokenKind)} {stop : Token} {rest : List Token}
  {links : List Link}

namespace Table.OfLevels

theorem exists_operator {table : Table} (h : table.OfLevels levels) {l : Link} (hl : l.Fits table) :
    ∃ o, BinaryOperator.ofKind? l.operator.kind = some o ∧
      table.bindingPower? l.operator.kind = some (l.power table) := by
  obtain ⟨p, hp⟩ := Option.isSome_iff_exists.1 hl.operator
  obtain ⟨o, ho⟩ := Option.isSome_iff_exists.1 (h.isSome_of_bindingPower? hp)
  refine ⟨o, ho, ?_⟩
  rw [Link.power, power, hp, Option.getD_some]

end Table.OfLevels

/-- Behind an operand of a chain comes an operator or the end, and no parentheses. -/
theorem Link.exists_head (rest : List Token) (ht : S.table.OfLevels levels) (hstop : stop.EndsChain)
    (hlinks : ∀ l ∈ links, l.Fits S.table) :
    ∃ u us, Link.tokens links ++ stop :: rest = u :: us ∧ u.kind ≠ .leftParen := by
  cases links with
  | nil =>
    refine ⟨stop, rest, rfl, ?_⟩
    rcases hstop with h | h <;> rw [h] <;> decide
  | cons l links =>
    obtain ⟨o, ho, -⟩ := ht.exists_operator (hlinks l (List.mem_cons_self ..))
    refine ⟨l.operator, _, rfl, fun hk => ?_⟩
    rw [hk] at ho
    cases ho

namespace Rule

variable {r : Rules} {m n : Nat} {first : Token} {before : List Link} {A : Tree}

/-- **Loop over a chain**: climbing goes on from the tree of the links before, none of which is weaker than
the next one, and stops at the first link that does not bind stronger than `m`. -/
theorem climbing_reads (ht : S.table.OfLevels levels) (hstop : stop.EndsChain)
    (hright : ∀ k, m < S.table.power k → ReadsChains S r stop rest (S.table.power k))
    (hlinks : ∀ l ∈ links, l.Fits S.table) (hrounds : links.length < S.rounds)
    (hn : links.length < n) (hA : Groups S.table first before A)
    (hbefore : ∀ next ∈ links.head?, ∀ l ∈ before, next.power S.table ≤ l.power S.table) :
    ∃ T, Groups S.table first (before ++ links.takeWhile fun l => m < l.power S.table) T ∧
      Reads (repeatUpTo (climbStep S r m) n A) (Link.tokens links ++ stop :: rest) T
        (Link.tokens (links.dropWhile fun l => m < l.power S.table) ++ stop :: rest) := by
  induction n generalizing links before A with
  | zero => omega
  | succ n ih =>
    cases links with
    | nil =>
      refine ⟨A, by simpa using hA, Reads.repeatUpTo_stop (climbStep_stops ?_ ?_) (by omega)⟩
      · intro q hq
        have ho := ht.isSome_of_bindingPower? hq
        rcases hstop with h | h <;> rw [h] at ho <;> cases ho
      · rcases hstop with h | h <;> rw [h] <;> intro hk <;> cases hk
    | cons l links =>
      have hl := hlinks l (List.mem_cons_self ..)
      have hlinks := fun l' hl' => hlinks l' (List.mem_cons_of_mem _ hl')
      obtain ⟨o, ho, hp⟩ := ht.exists_operator hl
      by_cases hlt : m < l.power S.table
      · rw [List.length_cons] at hrounds hn
        obtain ⟨B, hB, hreads⟩ := hright l.operator.kind hlt l.operand links hl.operand hlinks
          (by omega)
        -- The right operand takes in what binds stronger than `l`, so that nothing in it is weaker.
        have hdivides := Divides.takeWhile_dropWhile S.table (l.power S.table) links
        have hbefore : ∀ l' ∈ before, l.power S.table ≤ l'.power S.table := hbefore l rfl
        have hgroups := Groups.split hbefore hdivides.stronger ho hA hB
        have hfar : (links.dropWhile fun l' => l.power S.table < l'.power S.table) <:+ links :=
          List.dropWhile_suffix _
        have hlength := hfar.length_le
        obtain ⟨T, hT, hloop⟩ := ih (fun l' hl' => hlinks l' (hfar.subset hl'))
          (by omega) (by omega) hgroups (hdivides.next_le hbefore)
        refine ⟨T, ?_, ?_⟩
        · rw [List.takeWhile_cons_of_pos (by simpa using hlt),
            hdivides.takeWhile_eq (Nat.le_of_lt hlt), ← List.cons_append, ← List.append_assoc]
          exact hT
        · rw [List.dropWhile_cons_of_pos (by simpa using hlt),
            hdivides.dropWhile_eq (Nat.le_of_lt hlt)]
          exact Reads.repeatUpTo_next (climbStep_reads_operator ho hp hlt hreads) hloop
      · refine ⟨A, ?_, ?_⟩
        · rwa [List.takeWhile_cons_of_neg (by simpa using hlt), List.append_nil]
        · rw [List.dropWhile_cons_of_neg (by simpa using hlt)]
          refine Reads.repeatUpTo_stop (climbStep_stops (fun q hq => ?_) fun hk => ?_) (by omega)
          · cases hp.symm.trans hq
            exact Nat.le_of_not_lt hlt
          · rw [hk] at ho
            cases ho

/-- The rules read chains if there is room for an operand behind as many operators as bind stronger
than `m`. -/
theorem expression_reads_links (ht : S.table.OfLevels levels) (hstop : stop.EndsChain) {d m : Nat}
    (hd : (S.table.kindsAbove m).length + 2 < d) : ReadsChains S (rulesAt S d) stop rest m := by
  induction d generalizing m with
  | zero => omega
  | succ d ih =>
    intro first links hfirst hlinks hrounds
    -- A right operand is read with room for one call less, above a power that fewer kinds exceed.
    have hright : ∀ k, m < S.table.power k →
        ReadsChains S (rulesAt S d) stop rest (S.table.power k) := fun k hk =>
      ih (by have := Table.length_kindsAbove_lt hk; omega)
    have hoperand : Reads (rulesAt S d).operand (first :: (Link.tokens links ++ stop :: rest))
        first.leaf (Link.tokens links ++ stop :: rest) := by
      obtain ⟨u, us, hhead, hu⟩ := Link.exists_head rest ht hstop hlinks
      rw [hhead]
      exact operand_reads_atom ht.unary hfirst hu (by omega) (by omega)
    obtain ⟨T, hT, hloop⟩ := climbing_reads ht hstop hright hlinks hrounds hrounds (.leaf first)
      (by simp)
    exact ⟨T, hT, hoperand.bind hloop⟩

end Rule

/-- **Precedence climbing**: wherever a chain of operands of one token stands in a stream of tokens, an
expression above `m` takes in the chain up to the first operator that does not bind stronger than `m`, or
all of it, and is the one tree of that part. No chain is too long. -/
theorem Setting.expression_reads_chain {table : Table} (ht : table.OfLevels levels) (s : Stream)
    (m : Nat) {first : Token} (hfirst : first.kind.isAtom = true)
    (hlinks : ∀ l ∈ links, l.Fits table) (hstop : stop.EndsChain)
    (hs : first :: (Link.tokens links ++ stop :: rest) <:+ s.tokens) :
    ∃ T, (∀ T', Groups table first (links.takeWhile fun l => m < l.power table) T' ↔ T' = T) ∧
      Reads ((Setting.ofStream table s).rules.expression m)
        (first :: (Link.tokens links ++ stop :: rest)) T
        (Link.tokens (links.dropWhile fun l => m < l.power table) ++ stop :: rest) := by
  have hkinds : (table.kindsAbove m).length + 2 < nestingLimit :=
    Nat.lt_of_le_of_lt (Nat.add_le_add_right (table.length_kindsAbove_le m) 2) (by decide)
  have hrounds : links.length < s.tokens.length + 1 := by
    have hlength := hs.length_le
    rw [List.length_cons, List.length_append, Link.length_tokens] at hlength
    omega
  have hchains : ReadsChains (Setting.ofStream table s) (Setting.ofStream table s).rules stop rest m :=
    Rule.expression_reads_links ht hstop hkinds
  obtain ⟨T, hT, hreads⟩ := hchains first links hfirst hlinks hrounds
  exact ⟨T, fun T' => ⟨fun hT' => hT'.unique hT, fun hT' => hT' ▸ hT⟩, hreads⟩

end

/-- Under a table that names a kind twice, `a+b-c*d|e` above the weakest level is read up to the bar and
split at the minus sign. -/
theorem Setting.expression_reads_chain_to_bar :
    let name (s : String) (i : Nat) : Token := ⟨.identifier, .ofLength i 1, .name s, s.toList⟩
    let sign (k : TokenKind) (i : Nat) (c : Char) : Token := ⟨k, .ofLength i 1, .none, [c]⟩
    let links : List Link := [⟨sign .plus 1 '+', name "b" 2⟩, ⟨sign .minus 3 '-', name "c" 4⟩,
      ⟨sign .star 5 '*', name "d" 6⟩, ⟨sign .pipe 7 '|', name "e" 8⟩]
    let table : Table :=
      { Table.standard with
        bindingPowers := Table.powersOfLevels [[.plus, .pipe], [.minus], [.plus, .star]] }
    let stop := sign .endOfLine 9 '\n'
    let stream : Stream := ⟨name "a" 0 :: (Link.tokens links ++ [stop]), .exhausted⟩
    Reads ((Setting.ofStream table stream).rules.expression (1 : Nat)) stream.tokens
      (.binary (.ofLength 0 7) .subtract
        (.binary (.ofLength 0 3) .add (.reference (.ofLength 0 1) "a")
          (.reference (.ofLength 2 1) "b"))
        (.binary (.ofLength 4 3) .multiply (.reference (.ofLength 4 1) "c")
          (.reference (.ofLength 6 1) "d")))
      [sign .pipe 7 '|', name "e" 8, stop] := by
  intro name sign links table stop stream
  have ht : table.OfLevels [[.plus, .pipe], [.minus], [.plus, .star]] := ⟨by decide, rfl, rfl⟩
  have hlinks : ∀ l ∈ links, l.Fits table := by
    have hall : ∀ l ∈ links, (table.bindingPower? l.operator.kind).isSome = true ∧
        l.operand.kind.isAtom = true := by decide
    exact fun l hl => ⟨(hall l hl).1, (hall l hl).2⟩
  have hs : name "a" 0 :: (Link.tokens links ++ stop :: []) <:+ stream.tokens := List.suffix_rfl
  obtain ⟨T, hT, hreads⟩ :=
    Setting.expression_reads_chain ht stream 1 rfl hlinks (.inl rfl) hs
  have hsum : Groups table (name "a" 0) ([] ++ [⟨sign .plus 1 '+', name "b" 2⟩]) _ :=
    .split (by simp) (by simp) rfl (.leaf _) (.leaf _)
  have hproduct : Groups table (name "c" 4) ([] ++ [⟨sign .star 5 '*', name "d" 6⟩]) _ :=
    .split (by simp) (by simp) rfl (.leaf _) (.leaf _)
  have hdifference : Groups table (name "a" 0) (_ ++ ⟨sign .minus 3 '-', name "c" 4⟩ :: _) _ :=
    .split (by decide) (by decide) rfl hsum hproduct
  obtain rfl := (hT _).1 hdifference
  exact hreads

end Curly
