/-!
# Spans

A span says where in a text something stands. Offsets and lengths count characters.

## Main definitions

* `Span`: a half-open range `[start, stop)` whose bounds are in order.
* `Span.ofBounds?`: the span with two given integer bounds, if they are in order.
* `Span.union`: the least span that covers two spans.
* `Span.slice`: the part of a text under a span.
-/

namespace Curly

/-- A half-open range `[start, stop)` of offsets into a text. -/
structure Span where
  /-- The offset of the first character. -/
  start : Nat
  /-- The offset just after the last character. -/
  stop : Nat
  /-- The bounds are in order. -/
  start_le : start ≤ stop := by omega
deriving DecidableEq

namespace Span

/-- The empty span at the beginning of a text. -/
def origin : Span := ⟨0, 0, Nat.le_refl 0⟩

instance : Inhabited Span := ⟨origin⟩

/-- The span of `length` characters from `start` on. -/
def ofLength (start length : Nat) : Span := ⟨start, start + length, Nat.le_add_right start length⟩

/-- The span with the given bounds; there is none if the first is negative or beyond the second. -/
def ofBounds? (start stop : Int) : Option Span :=
  if h : 0 ≤ start ∧ start ≤ stop then
    some ⟨start.toNat, stop.toNat, by omega⟩
  else none

/-- The complaint about bounds that make no span. -/
def invalidText (start stop : Int) : String :=
  "invalid span [" ++ toString start ++ ", " ++ toString stop ++ ")"

/-- The number of characters covered. -/
def length (s : Span) : Nat := s.stop - s.start

/-- The least span that covers both. -/
def union (s t : Span) : Span :=
  ⟨min s.start t.start, max s.stop t.stop, by have := s.start_le; have := t.start_le; omega⟩

/-- The same span, `distance` characters further on. -/
def shift (s : Span) (distance : Nat) : Span :=
  ⟨s.start + distance, s.stop + distance, by have := s.start_le; omega⟩

/-- The characters under the span; what lies beyond the end of the text is missing. -/
def slice (s : Span) (text : List Char) : List Char := (text.drop s.start).take s.length

/-- The written form, `[start..stop)`. -/
protected def toString (s : Span) : String :=
  "[" ++ toString s.start ++ ".." ++ toString s.stop ++ ")"

instance : ToString Span := ⟨Span.toString⟩

variable {s t : Span}

@[ext] theorem ext (hstart : s.start = t.start) (hstop : s.stop = t.stop) : s = t := by
  cases s; cases t; simp_all

@[simp] theorem start_ofLength (i n : Nat) : (ofLength i n).start = i := rfl

@[simp] theorem stop_ofLength (i n : Nat) : (ofLength i n).stop = i + n := rfl

@[simp] theorem start_union : (s.union t).start = min s.start t.start := rfl

@[simp] theorem stop_union : (s.union t).stop = max s.stop t.stop := rfl

@[simp] theorem length_ofLength (i n : Nat) : (ofLength i n).length = n := by
  simp [length]

@[simp] theorem start_shift (s : Span) (n : Nat) : (s.shift n).start = s.start + n := rfl

@[simp] theorem stop_shift (s : Span) (n : Nat) : (s.shift n).stop = s.stop + n := rfl

@[simp] theorem length_shift (s : Span) (n : Nat) : (s.shift n).length = s.length := by
  simp only [length, start_shift, stop_shift]
  omega

theorem shift_union (s t : Span) (n : Nat) : (s.union t).shift n = (s.shift n).union (t.shift n) := by
  ext
  · simp only [start_shift, start_union]
    omega
  · simp only [stop_shift, stop_union]
    omega

theorem union_assoc (s t u : Span) : (s.union t).union u = s.union (t.union u) := by
  ext
  · exact Nat.min_assoc _ _ _
  · exact Nat.max_assoc _ _ _

theorem union_comm (s t : Span) : s.union t = t.union s := by
  ext
  · exact Nat.min_comm _ _
  · exact Nat.max_comm _ _

theorem union_self (s : Span) : s.union s = s := by
  ext <;> simp

end Span

end Curly
