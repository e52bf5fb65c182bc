import Curly.Proofs.Grammar.Exactness
import Curly.Proofs.Grammar.Roles

/-!
# How the units of text hang together

A single statement and a program are statement lists of a special kind: a list of one entry, and a list
of declarations. Whether the last entry is followed by an end of line makes no difference to them.

## Main definitions

* `Tree.IsDeclaration`: a tree is a declaration.

## Main statements

* `Tree.read_single_iff`: a text is a single statement if it is a list of one entry.
* `Tree.read_program_iff`: a text is a program if it is a list of declarations. As such it goes one call
  deeper.
-/

namespace Curly

/-- The tree is a declaration. -/
def Tree.IsDeclaration (t : Tree) : Prop := ∃ span name e, t = declaration span name e

variable {ts : List Token} {ps : List Part} {es : List Tree} {t : Option Tree}

/-- The trees of the parts are the entries. -/
theorem Listing.map_snd (h : Listing ts ps es t) : ps.map Prod.snd = es ++ t.toList := by
  induction h with
  | nil => rfl
  | tail => rfl
  | statement _ _ _ ih => rw [List.map_cons, ih, List.cons_append]

/-- A statement with any number of ends of line behind it is a listing of its own. -/
theorem Listing.single (us : List Token) (T : Tree) {ends : List Token} (hends : EndsOfLine ends) :
    ∃ es t, Listing (us ++ ends) [(us, T)] es t ∧ es ++ t.toList = [T] := by
  by_cases hne : ends = []
  · subst hne
    rw [List.append_nil]
    exact ⟨[], some T, .tail, rfl⟩
  · have h : Listing (us ++ (ends ++ [])) [(us, T)] [T] none := .statement hne hends .nil
    rw [List.append_nil] at h
    exact ⟨[T], none, h, rfl⟩

/-- A listing of one entry consists of this entry with ends of line behind it. -/
theorem Listing.exists_single {T : Tree} (h : Listing ts ps es t) (hT : es ++ t.toList = [T]) :
    ∃ us ends, ts = us ++ ends ∧ EndsOfLine ends ∧ ps = [(us, T)] := by
  cases h with
  | nil => cases hT
  | tail =>
    cases hT
    exact ⟨ts, [], (List.append_nil ts).symm, .nil, rfl⟩
  | @statement _ _ _ _ parts _ _ _ hends hrest =>
    obtain ⟨rfl, hnil⟩ := List.cons.inj hT
    have hparts : parts.map Prod.snd = [] := hrest.map_snd.trans hnil
    obtain rfl := List.map_eq_nil_iff.1 hparts
    cases hrest
    exact ⟨_, _, by rw [List.append_nil], hends, rfl⟩

namespace TextUnit

variable {d : Nat} {T : Tree}

/-- One statement is a list of one entry. -/
theorem derives_single_iff : Derives d .single ts T ↔
    ∃ span es t, Derives d .statements ts (.block span es t) ∧ es ++ t.toList = [T] := by
  constructor
  · intro h
    cases h with
    | @single before us T after eof hbefore h hafter heof =>
      obtain ⟨es, t, hlisting, hT⟩ := Listing.single us T hafter
      rw [← List.append_assoc us]
      exact ⟨_, es, t, .statements hbefore hlisting (by simpa using h) heof, hT⟩
  · rintro ⟨span, es, t, h, hT⟩
    cases h with
    | statements hends hlisting hparts heof =>
      obtain ⟨us, after, rfl, hafter, rfl⟩ := hlisting.exists_single hT
      rw [List.append_assoc]
      exact .single hends (by simpa using hparts) hafter heof

/-- A program is a list of declarations. A declaration is one call deeper as a statement. -/
theorem derives_program_iff : Derives d .program ts T ↔
    ∃ span es t, Derives (d + 1) .statements ts (.block span es t) ∧
      (∀ e ∈ es ++ t.toList, e.IsDeclaration) ∧ T = .block span (es ++ t.toList) none := by
  constructor
  · intro h
    cases h with
    | program hends hlisting hparts hdecl heof =>
      refine ⟨_, _, _, .statements hends hlisting hparts heof, fun e he => ?_, rfl⟩
      obtain ⟨p, hp, rfl⟩ := hlisting.mem_parts he
      exact hdecl p hp
  · rintro ⟨span, es, t, h, hdecl, rfl⟩
    cases h with
    | statements hends hlisting hparts heof =>
      refine .program hends hlisting hparts (fun p hp => hdecl p.2 ?_) heof
      rw [← hlisting.map_snd]
      exact List.mem_map_of_mem hp

end TextUnit

namespace Tree

variable {text : List Char} {T : Tree}

/-- A text is read as a single statement if and only if it is read as a list with this statement as its
only entry. -/
theorem read_single_iff (n : Nat) : (∃ c, readWithin n .single text = .ok T c) ↔
    ∃ span es t, (∃ c, readWithin n .statements text = .ok (.block span es t) c) ∧
      es ++ t.toList = [T] := by
  simp only [read_iff_derives, TextUnit.derives_single_iff]
  constructor
  · rintro ⟨hending, span, es, t, h, hT⟩
    exact ⟨span, es, t, ⟨hending, h⟩, hT⟩
  · rintro ⟨span, es, t, ⟨hending, h⟩, hT⟩
    exact ⟨hending, span, es, t, h, hT⟩

/-- A text is read as a program if and only if it is read as a list of declarations with room for one
more call. -/
theorem read_program_iff (n : Nat) : (∃ c, readWithin n .program text = .ok T c) ↔
    ∃ span es t, (∃ c, readWithin (n + 1) .statements text = .ok (.block span es t) c) ∧
      (∀ e ∈ es ++ t.toList, e.IsDeclaration) ∧ T = .block span (es ++ t.toList) none := by
  simp only [read_iff_derives, TextUnit.derives_program_iff]
  constructor
  · rintro ⟨hending, span, es, t, h, hT⟩
    exact ⟨span, es, t, ⟨hending, h⟩, hT⟩
  · rintro ⟨span, es, t, ⟨hending, h⟩, hT⟩
    exact ⟨hending, span, es, t, h, hT⟩

/-- With the same room, a text is read as a program if and only if it is read as a list of declarations,
unless it is nested too deeply for a list of statements. -/
theorem read_program_iff_or (n : Nat) (text : List Char) :
    (∃ c, readWithin n .statements text = .error .tooDeep c) ∨
      ∀ T, (∃ c, readWithin n .program text = .ok T c) ↔
        ∃ span es t, (∃ c, readWithin n .statements text = .ok (.block span es t) c) ∧
          (∀ e ∈ es ++ t.toList, e.IsDeclaration) ∧ T = .block span (es ++ t.toList) none := by
  by_cases hdeep : ∃ c, readWithin n .statements text = .error .tooDeep c
  · exact .inl hdeep
  · refine .inr fun T => (read_program_iff n).trans ?_
    constructor
    · rintro ⟨span, es, t, h, hT⟩
      exact ⟨span, es, t, (read_deep_or n h).resolve_left hdeep, hT⟩
    · rintro ⟨span, es, t, h, hT⟩
      exact ⟨span, es, t, read_mono (Nat.le_succ n) h, hT⟩

end Tree

end Curly
