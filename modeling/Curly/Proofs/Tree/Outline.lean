import Mathlib.Data.List.SplitBy
import Curly.Proofs.Tree.Alike

/-!
# Reading outlines back

The lines of an outline say by their indentation what belongs together: behind the line of a node come
all deeper lines, and these fall apart where a line is just one step further in. So trees with the same
outline are shown alike.

## Main definitions

* `Tree.captionOfRole`: the line above a child with a role, without indentation.
* `Tree.Caption`: what the lines of a tree say behind their indentation.
* `Tree.part?`: the lines of a child, with the one for its role.
* `Tree.depth`: how far a line is indented.

## Main statements

* `Tree.outlineAt?_eq_some_iff`: an outline is the line of the root and a part for each child.
* `Tree.outlineAt?_lines`: the first line of an outline is the one that is indented least.
* `Tree.ShownAlike.of_outlineAt?_eq`: trees with the same outline are shown alike.
* `Tree.ShownAlike.outlineAt?_eq`: trees that are shown alike have the same outline.
-/

namespace Curly

section Lists

variable {α β γ : Type}

theorem mapM_eq_some_iff {f : α → Option β} {as : List α} {bs : List β} :
    as.mapM f = some bs ↔ List.Forall₂ (fun a b => f a = some b) as bs := by
  induction as generalizing bs with
  | nil =>
    rw [List.mapM_nil, List.forall₂_nil_left_iff]
    exact ⟨fun h => (Option.some.inj h).symm, fun h => congrArg some h.symm⟩
  | cons a as ih =>
    rw [List.mapM_cons, List.forall₂_cons_left_iff]
    simp only [Option.bind_eq_bind, Option.bind_eq_some_iff, ih]
    constructor
    · rintro ⟨b, hb, bs', hbs, ⟨⟩⟩
      exact ⟨b, bs', hb, hbs, rfl⟩
    · rintro ⟨b, bs', hb, hbs, rfl⟩
      exact ⟨b, hb, bs', hbs, rfl⟩

theorem mapM_eq_of_forall₂ {f : α → Option β} {as as' : List α}
    (h : List.Forall₂ (fun a a' => f a = f a') as as') : as.mapM f = as'.mapM f := by
  induction h with
  | nil => rfl
  | cons ha _ ih => rw [List.mapM_cons, List.mapM_cons, ha, ih]

/-- Elements that are related to the same lists are related to each other. -/
theorem forall₂_of_common {R : α → γ → Prop} {S : β → γ → Prop} {Q : α → β → Prop} {as : List α}
    {bs : List β} {cs : List γ} (h : List.Forall₂ R as cs) (h' : List.Forall₂ S bs cs)
    (hQ : ∀ a ∈ as, ∀ b ∈ bs, ∀ c, R a c → S b c → Q a b) : List.Forall₂ Q as bs := by
  induction h generalizing bs with
  | nil =>
    cases h'
    exact .nil
  | cons hac _ ih =>
    cases h' with
    | cons hbc h' =>
      exact .cons (hQ _ (List.mem_cons_self ..) _ (List.mem_cons_self ..) _ hac hbc)
        (ih h' fun a ha b hb => hQ a (List.mem_cons_of_mem _ ha) b (List.mem_cons_of_mem _ hb))

theorem forall₂_map_same {R : α → β → Prop} {as : List α} {bs : List β} (role : γ)
    (h : List.Forall₂ R as bs) : List.Forall₂ (fun p q => p.1 = q.1 ∧ R p.2 q.2)
      (as.map fun a => (role, a)) (bs.map fun b => (role, b)) := by
  rw [List.forall₂_map_left_iff, List.forall₂_map_right_iff]
  exact h.imp fun _ _ hab => ⟨rfl, hab⟩

/-- Related elements are counted alike. -/
theorem forall₂_zipIdx {R : α → β → Prop} {as : List α} {bs : List β} (h : List.Forall₂ R as bs) (n : Nat) :
    List.Forall₂ (fun x y => R x.1 y.1 ∧ x.2 = y.2) (as.zipIdx n) (bs.zipIdx n) := by
  induction h generalizing n with
  | nil => exact .nil
  | cons hab _ ih => exact .cons ⟨hab, rfl⟩ (ih (n + 1))

/-- Lists that begin with a mark and have no other are found again where they are put together. -/
theorem splitBy_flatten_of_marks {p : α → Bool} {parts : List (List α)}
    (h : ∀ part ∈ parts, ∃ a rest, part = a :: rest ∧ p a = true ∧ ∀ b ∈ rest, p b = false) :
    parts.flatten.splitBy (fun _ b => !p b) = parts := by
  refine List.splitBy_flatten ?_ ?_ ?_
  · intro hnil
    obtain ⟨a, rest, hpart, -⟩ := h [] hnil
    cases hpart
  · intro part hpart
    obtain ⟨a, rest, rfl, -, hrest⟩ := h part hpart
    refine List.Pairwise.isChain (List.pairwise_cons.2 ⟨fun b hb => by simp [hrest b hb], ?_⟩)
    exact List.pairwise_of_forall_mem_list fun _ _ b hb => by simp [hrest b hb]
  · refine List.Pairwise.isChain (List.pairwise_of_forall_mem_list fun part hpart part' hpart' => ?_)
    obtain ⟨a, rest, rfl, -, -⟩ := h part hpart
    obtain ⟨a', rest', rfl, ha', -⟩ := h part' hpart'
    exact ⟨List.cons_ne_nil _ _, List.cons_ne_nil _ _, by simp [ha']⟩

end Lists

namespace Tree

variable {t u : Tree} {width level : Int} {room : Nat} {lines : List String}

/-- The line above a child with a role, without indentation. -/
def captionOfRole (role : String) : String := role ++ ":"

/-- What the lines of a tree say behind their indentation. -/
inductive Caption (t : Tree) : String → Prop where
  | node {path : List Nat} {u : Tree} (hu : t.at? path = some u) : Caption t u.caption
  | role {path : List Nat} {u : Tree} {role : String} {child : Tree} (hu : t.at? path = some u)
      (hrole : (some role, child) ∈ u.roles) : Caption t (captionOfRole role)

/-- The lines of a child, with the one for its role. -/
def part? (width : Int) (room : Nat) (level : Int) : Option String × Tree → Option (List String)
  | (some role, child) => (outlineAt? width room (level + 2) child).map fun lines =>
      (indentation width level ++ indentation width 1 ++ captionOfRole role) :: lines
  | (none, child) => outlineAt? width room (level + 1) child

/-- How far a line is indented. -/
def depth (line : String) : Nat := (line.toList.takeWhile (· = ' ')).length

/-- The children are those that have roles, or none that is shown. -/
theorem map_snd_roles (t : Tree) : t.roles.map Prod.snd = t.children := by
  cases t with
  | call _ f args => simp [roles, children, List.zipIdx_map_fst, Function.comp_def]
  | block _ es tail => simp [roles, children, Function.comp_def]
  | _ => simp [roles, children]

/-- What is below a child is below the tree, with one more choice on the way. -/
theorem exists_at?_child (hu : u ∈ t.children) : ∃ i, ∀ path, t.at? (path ++ [i]) = u.at? path := by
  obtain ⟨i, hi⟩ := List.mem_iff_getElem?.1 hu
  refine ⟨i, fun path => ?_⟩
  rw [at?_append, at?_cons (at?_nil t), hi, Option.bind_some]

theorem mem_children_of_mem_roles {role : Option String} {child : Tree} (h : (role, child) ∈ t.roles) :
    child ∈ t.children :=
  map_snd_roles t ▸ List.mem_map_of_mem h

/-- The line above a child begins with a small letter, and it is a single line. -/
theorem captionOfRole_letters {role : String} {child : Tree} (h : (some role, child) ∈ t.roles) :
    BeginsWithLetter false (captionOfRole role) ∧ '\n' ∉ (captionOfRole role).toList := by
  cases t with
  | call _ f args =>
    rw [roles, List.mem_cons, List.mem_map] at h
    rcases h with h | ⟨⟨a, i⟩, -, h⟩
    · cases h
      exact ⟨⟨'c', by decide, rfl, rfl⟩, by decide⟩
    · cases h
      rw [captionOfRole]
      refine ⟨⟨'a', ?_, rfl, rfl⟩, ?_⟩
      · rw [String.toList_append, String.toList_append, List.append_assoc, List.head?_append]
        rfl
      · rw [String.toList_append, String.toList_append, List.mem_append, List.mem_append]
        exact not_or_intro (not_or_intro (by decide) (not_mem_toString_nat rfl i)) (by decide)
  | block _ es tail =>
    rw [roles, List.mem_append, List.mem_map, List.mem_map] at h
    rcases h with ⟨e, -, h⟩ | ⟨e, -, h⟩
    · cases h
    · cases h
      exact ⟨⟨'t', by decide, rfl, rfl⟩, by decide⟩
  | _ => simp [roles] at h

theorem outlineAt?_succ (width : Int) (room : Nat) (level : Int) (t : Tree) :
    outlineAt? width (room + 1) level t = (t.roles.mapM (part? width room level)).map fun parts =>
      (indentation width level ++ t.caption) :: parts.flatten := by
  have hcaption : indentation width level ++ t.heading ++ " " ++ toString t.span =
      indentation width level ++ t.caption := by
    simp only [caption, String.append_assoc]
  rw [outlineAt?, hcaption, Option.map_eq_bind]
  refine congrArg (fun f : Option String × Tree → Option (List String) => (t.roles.mapM f).bind
    fun parts => some ((indentation width level ++ t.caption) :: parts.flatten)) (funext fun p => ?_)
  obtain ⟨role, child⟩ := p
  cases role with
  | none => rfl
  | some role =>
    rw [part?, captionOfRole, ← String.append_assoc, Option.map_eq_bind]
    rfl

/-- An outline is the line of the root, with a part for each of its children. -/
theorem outlineAt?_eq_some_iff : outlineAt? width (room + 1) level t = some lines ↔
    ∃ parts, List.Forall₂ (fun p part => part? width room level p = some part) t.roles parts ∧
      lines = (indentation width level ++ t.caption) :: parts.flatten := by
  simp only [outlineAt?_succ, Option.map_eq_some_iff, mapM_eq_some_iff, eq_comm (b := lines)]

/-- One step further in. -/
theorem indentation_step (width : Int) (hlevel : 0 ≤ level) :
    indentation width level ++ indentation width 1 = indentation width (level + 1) := by
  have hsteps : width.toNat * (level + 1).toNat = width.toNat * level.toNat + width.toNat := by
    rw [Int.toNat_add hlevel (by decide), Nat.mul_add, Int.toNat_one, Nat.mul_one]
  rw [indentation, indentation, indentation, ← String.ofList_append, List.replicate_append_replicate,
    hsteps, Int.toNat_one, Nat.mul_one]

/-- A line is indented as far as it is meant to be if it begins with a letter behind that. -/
theorem depth_indentation {capital : Bool} {text : String} (h : BeginsWithLetter capital text) :
    depth (indentation width level ++ text) = width.toNat * level.toNat := by
  have hblanks : ∀ d ∈ (indentation width level).toList, decide (d = ' ') = true := by
    intro d hd
    rw [indentation, String.toList_ofList] at hd
    exact decide_eq_true (List.eq_of_mem_replicate hd)
  obtain ⟨c, hhead, hletter, -⟩ := h
  obtain ⟨rest, htext⟩ := List.head?_eq_some_iff.1 hhead
  have hend : (c :: rest).takeWhile (· = ' ') = [] := by
    refine List.takeWhile_cons_of_neg ?_
    rw [decide_eq_true_eq]
    rintro rfl
    exact absurd hletter (by decide)
  rw [depth, String.toList_append, List.takeWhile_append_of_pos hblanks, htext, hend, List.append_nil,
    indentation, String.toList_ofList, List.length_replicate]

theorem Caption.beginsWithLetter {text : String} (h : Caption t text) :
    ∃ capital, BeginsWithLetter capital text := by
  cases h with
  | node => exact ⟨true, beginsWithLetter_caption _⟩
  | role _ hrole => exact ⟨false, (captionOfRole_letters hrole).1⟩

/-- What the lines of a child say, the lines of the tree say. -/
theorem Caption.of_child {child : Tree} {text : String} (h : Caption child text)
    (hchild : child ∈ t.children) : Caption t text := by
  obtain ⟨i, hat⟩ := exists_at?_child hchild
  cases h with
  | node hu => exact .node ((hat _).trans hu)
  | role hu hrole => exact .role ((hat _).trans hu) hrole

/-- The first line of an outline is that of the root. All others are indented further. -/
theorem outlineAt?_lines (hlevel : 0 ≤ level) (h : outlineAt? width room level t = some lines) :
    ∃ below, lines = (indentation width level ++ t.caption) :: below ∧ ∀ line ∈ below,
      ∃ level' text, level < level' ∧ Caption t text ∧ line = indentation width level' ++ text := by
  induction room generalizing level t lines with
  | zero => cases h
  | succ room ih =>
    obtain ⟨parts, hparts, rfl⟩ := outlineAt?_eq_some_iff.1 h
    refine ⟨_, rfl, fun line hline => ?_⟩
    obtain ⟨part, hpart, hline⟩ := List.mem_flatten.1 hline
    obtain ⟨⟨role, child⟩, hrole, h⟩ := exists_of_forall₂_mem hparts hpart
    have hchild := mem_children_of_mem_roles hrole
    -- The lines of the child, wherever it stands.
    have hbelow : ∀ {level' ls}, level < level' → outlineAt? width room level' child = some ls →
        line ∈ ls → ∃ level'' text, level < level'' ∧ Caption t text ∧
          line = indentation width level'' ++ text := by
      intro level' ls hlt hls hmem
      obtain ⟨below, rfl, hbelow⟩ := ih (Int.le_trans hlevel (Int.le_of_lt hlt)) hls
      rcases List.mem_cons.1 hmem with rfl | hmem
      · exact ⟨level', _, hlt, (Caption.node (at?_nil child)).of_child hchild, rfl⟩
      · obtain ⟨level'', text, hlt', htext, rfl⟩ := hbelow line hmem
        exact ⟨level'', text, Int.lt_trans hlt hlt', htext.of_child hchild, rfl⟩
    cases role with
    | none => exact hbelow (Int.lt_succ level) h hline
    | some role =>
      obtain ⟨ls, hls, rfl⟩ := Option.map_eq_some_iff.1 h
      rcases List.mem_cons.1 hline with rfl | hline
      · rw [indentation_step width hlevel]
        exact ⟨level + 1, _, Int.lt_succ level, .role (at?_nil t) hrole, rfl⟩
      · exact hbelow (by omega) hls hline

/-- A part begins one step further in than the line of the node, with a small letter if there is a role to
be shown. All its other lines are indented further. -/
theorem part?_lines (hlevel : 0 ≤ level) {p : Option String × Tree} (hp : p ∈ t.roles)
    (h : part? width room level p = some lines) :
    ∃ text rest, lines = (indentation width (level + 1) ++ text) :: rest ∧
      BeginsWithLetter p.1.isNone text ∧ ∀ line ∈ rest, ∃ level' text',
        level + 1 < level' ∧ Caption p.2 text' ∧ line = indentation width level' ++ text' := by
  obtain ⟨role, child⟩ := p
  cases role with
  | none =>
    obtain ⟨below, rfl, hbelow⟩ := outlineAt?_lines (Int.le_add_one hlevel) h
    exact ⟨_, below, rfl, beginsWithLetter_caption child, hbelow⟩
  | some role =>
    obtain ⟨ls, hls, rfl⟩ := Option.map_eq_some_iff.1 h
    obtain ⟨below, rfl, hbelow⟩ := outlineAt?_lines (by omega) hls
    rw [indentation_step width hlevel]
    refine ⟨_, _, rfl, (captionOfRole_letters hp).1, List.forall_mem_cons.2 ⟨?_, fun line hline => ?_⟩⟩
    · exact ⟨level + 2, _, by omega, .node (at?_nil child), rfl⟩
    · obtain ⟨level', text, hlt, htext, rfl⟩ := hbelow line hline
      exact ⟨level', text, by omega, htext, rfl⟩

/-- The parts of an outline are found again in it: they begin where a line is one step further in. -/
theorem splitBy_parts (hwidth : 1 ≤ width) (hlevel : 0 ≤ level) {parts : List (List String)}
    (h : List.Forall₂ (fun p part => part? width room level p = some part) t.roles parts) :
    parts.flatten.splitBy (fun _ line => !decide (depth line ≤ width.toNat * (level + 1).toNat)) =
      parts := by
  refine splitBy_flatten_of_marks fun part hpart => ?_
  obtain ⟨p, hp, hp'⟩ := exists_of_forall₂_mem h hpart
  obtain ⟨text, rest, rfl, htext, hrest⟩ := part?_lines hlevel hp hp'
  refine ⟨_, rest, rfl, decide_eq_true (Nat.le_of_eq (depth_indentation htext)), fun line hline => ?_⟩
  obtain ⟨level', text', hlt, htext', rfl⟩ := hrest line hline
  obtain ⟨capital, hletter⟩ := htext'.beginsWithLetter
  rw [depth_indentation hletter]
  exact decide_eq_false (Nat.not_le_of_lt (Nat.mul_lt_mul_of_pos_left (by omega) (by omega)))

/-- Parts with the same lines either both show a role or both show none. -/
theorem isNone_role_eq (hlevel : 0 ≤ level) {p q : Option String × Tree} (hp : p ∈ t.roles)
    (hq : q ∈ u.roles) (h : part? width room level p = some lines)
    (h' : part? width room level q = some lines) : p.1.isNone = q.1.isNone := by
  obtain ⟨text, rest, rfl, ⟨c, hc, -, hcapital⟩, -⟩ := part?_lines hlevel hp h
  obtain ⟨text', rest', heq, ⟨c', hc', -, hcapital'⟩, -⟩ := part?_lines hlevel hq h'
  obtain rfl := (String.append_right_inj _).1 (List.cons.inj heq).1
  obtain rfl := Option.some.inj (hc.symm.trans hc')
  exact hcapital.symm.trans hcapital'

theorem forall_at?_child {P : Tree → Prop} (h : ∀ path v, t.at? path = some v → P v)
    (hu : u ∈ t.children) : ∀ path v, u.at? path = some v → P v := by
  obtain ⟨i, hat⟩ := exists_at?_child hu
  exact fun path v hv => h _ v ((hat path).trans hv)

/-- **Outlines can be read back.** Presentable trees with the same outline are shown alike. -/
theorem ShownAlike.of_outlineAt?_eq (hwidth : 1 ≤ width) (hlevel : 0 ≤ level)
    (ht : ∀ path v, t.at? path = some v → v.Presentable)
    (hu : ∀ path v, u.at? path = some v → v.Presentable)
    (hlines : outlineAt? width room level t = some lines)
    (hlines' : outlineAt? width room level u = some lines) : ShownAlike t u := by
  induction room generalizing level t u lines with
  | zero => cases hlines
  | succ room ih =>
    obtain ⟨parts, hparts, rfl⟩ := outlineAt?_eq_some_iff.1 hlines
    obtain ⟨parts', hparts', heq⟩ := outlineAt?_eq_some_iff.1 hlines'
    obtain ⟨hfirst, hbelow⟩ := List.cons.inj heq
    obtain ⟨hheading, hspan⟩ := caption_inj ((String.append_right_inj _).1 hfirst)
    obtain rfl : parts = parts' := by
      rw [← splitBy_parts hwidth hlevel hparts, hbelow, splitBy_parts hwidth hlevel hparts']
    have hroles : List.Forall₂ (fun p q : Option String × Tree => ShownAlike p.2 q.2) t.roles u.roles := by
      refine forall₂_of_common hparts hparts' fun p hp q hq part h h' => ?_
      have hrole := isNone_role_eq hlevel hp hq h h'
      obtain ⟨role, a⟩ := p
      obtain ⟨role', b⟩ := q
      have ha := forall_at?_child ht (mem_children_of_mem_roles hp)
      have hb := forall_at?_child hu (mem_children_of_mem_roles hq)
      cases role with
      | none =>
        cases role' with
        | none => exact ih (Int.le_add_one hlevel) ha hb h h'
        | some => cases hrole
      | some =>
        cases role' with
        | none => cases hrole
        | some =>
          obtain ⟨ls, hls, rfl⟩ := Option.map_eq_some_iff.1 h
          obtain ⟨ls', hls', heq⟩ := Option.map_eq_some_iff.1 h'
          obtain ⟨-, rfl⟩ := List.cons.inj heq
          exact ih (by omega) ha hb hls hls'
    refine .of_heading_eq (ht [] t (at?_nil t)) (hu [] u (at?_nil u)) hspan hheading ?_
    rwa [← map_snd_roles, ← map_snd_roles, List.forall₂_map_left_iff, List.forall₂_map_right_iff]

/-- Every line of an outline is a single line. -/
theorem newline_not_mem_of_mem_outline (hlevel : 0 ≤ level)
    (ht : ∀ path v, t.at? path = some v → v.Presentable)
    (h : outlineAt? width room level t = some lines) : ∀ line ∈ lines, '\n' ∉ line.toList := by
  have hline : ∀ level' {text}, Caption t text → '\n' ∉ (indentation width level' ++ text).toList := by
    intro level' text htext hmem
    rw [String.toList_append, List.mem_append, indentation, String.toList_ofList] at hmem
    rcases hmem with hmem | hmem
    · exact absurd (List.eq_of_mem_replicate hmem) (by decide)
    · cases htext with
      | node hv => exact (ht _ _ hv).newline_not_mem_caption hmem
      | role _ hrole => exact (captionOfRole_letters hrole).2 hmem
  obtain ⟨below, rfl, hbelow⟩ := outlineAt?_lines hlevel h
  refine List.forall_mem_cons.2 ⟨hline level (.node (at?_nil t)), fun line hmem => ?_⟩
  obtain ⟨level', text, -, htext, rfl⟩ := hbelow line hmem
  exact hline level' htext

/-- Lines can be told apart in a text that they are joined to. -/
theorem lines_eq_of_intercalate_eq {lines lines' : List String} (hne : lines ≠ []) (hne' : lines' ≠ [])
    (h : ∀ line ∈ lines, '\n' ∉ line.toList) (h' : ∀ line ∈ lines', '\n' ∉ line.toList)
    (heq : String.intercalate "\n" lines = String.intercalate "\n" lines') : lines = lines' := by
  have hsplit : ∀ {lines : List String}, lines ≠ [] → (∀ line ∈ lines, '\n' ∉ line.toList) →
      (String.intercalate "\n" lines).toList.splitOn '\n' = lines.map String.toList := by
    intro lines hne h
    rw [String.toList_intercalate]
    exact List.splitOn_intercalate '\n' (List.forall_mem_map.2 h) (by simpa using hne)
  have hchars : lines.map String.toList = lines'.map String.toList := by
    rw [← hsplit hne h, heq, hsplit hne' h']
  exact List.map_injective_iff.2 (fun _ _ => String.toList_inj.1) hchars

/-- Trees that are shown alike have the same line, and what is below them is shown alike and has the same
roles. -/
theorem ShownAlike.forall₂_roles (h : ShownAlike t u) : t.caption = u.caption ∧
    List.Forall₂ (fun p q => p.1 = q.1 ∧ ShownAlike p.2 q.2) t.roles u.roles := by
  cases h with
  | literal hv => exact ⟨by rw [caption, caption, heading, heading, hv.display_eq, span, span], .nil⟩
  | reference => exact ⟨rfl, .nil⟩
  | nameless => exact ⟨rfl, .nil⟩
  | declaration he => exact ⟨rfl, .cons ⟨rfl, he⟩ .nil⟩
  | assignment he => exact ⟨rfl, .cons ⟨rfl, he⟩ .nil⟩
  | binary ha hb => exact ⟨rfl, .cons ⟨rfl, ha⟩ (.cons ⟨rfl, hb⟩ .nil)⟩
  | unary ha => exact ⟨rfl, .cons ⟨rfl, ha⟩ .nil⟩
  | call hf hargs =>
    refine ⟨by rw [caption, caption, heading, heading, hargs.length_eq, span, span], .cons ⟨rfl, hf⟩ ?_⟩
    rw [List.forall₂_map_left_iff, List.forall₂_map_right_iff]
    exact (forall₂_zipIdx hargs 0).imp fun _ _ h =>
      ⟨congrArg (fun i => some ("arg " ++ toString i)) h.2, h.1⟩
  | block hes ht =>
    refine ⟨?_, List.rel_append (forall₂_map_same none hes) (forall₂_map_same (some "tail") ?_)⟩
    · cases ht <;> rfl
    · cases ht with
      | none => exact .nil
      | some he => exact .cons he .nil
  | doBlock hb => exact ⟨rfl, .cons ⟨rfl, hb⟩ .nil⟩
  | loop hb => exact ⟨rfl, .cons ⟨rfl, hb⟩ .nil⟩
  | bare => exact ⟨rfl, .nil⟩

/-- Trees that are shown alike have the same outline. -/
theorem ShownAlike.outlineAt?_eq (h : ShownAlike t u) :
    outlineAt? width room level t = outlineAt? width room level u := by
  induction room generalizing level t u with
  | zero => rfl
  | succ room ih =>
    obtain ⟨hcaption, hroles⟩ := h.forall₂_roles
    have hparts : t.roles.mapM (part? width room level) = u.roles.mapM (part? width room level) := by
      refine mapM_eq_of_forall₂ (hroles.imp fun p q hpq => ?_)
      obtain ⟨role, a⟩ := p
      obtain ⟨role', b⟩ := q
      obtain ⟨rfl, hab⟩ := hpq
      cases role with
      | none => exact ih hab
      | some role => rw [part?, part?, ih hab]
    rw [outlineAt?_succ, outlineAt?_succ, hcaption, hparts]

end Tree

end Curly
