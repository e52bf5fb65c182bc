import Curly.Proofs.Run.Safety
import Curly.Proofs.Value.Display

/-!
# Values that are displayed alike

The display form of a value says which value it is. Only different numbers may share one.

## Main definitions

* `isNumeric`: the characters that numbers are displayed with.
* `Value.ShownAlike`: values that are equal, or numbers with the same display form.
* `Value.displayedKind`: the kind of value that a display form stands for.

## Main statements

* `Value.displayedKind_display`: a display form says the kind of the value.
* `Value.display_eq_iff`: values with the same display form are shown alike.
* `Value.newline_not_mem_display`: a display form is a single line.
-/

namespace Curly

theorem toList_toString_nat (n : Nat) : (toString n).toList = Nat.toDigits 10 n := by
  rw [Nat.toString_eq_ofList_toDigits, String.toList_ofList]

/-- The characters that numbers are written with. -/
def isNumeric (c : Char) : Bool := c.isDigit || ['+', '-', '.', 'a', 'e', 'f', 'i', 'n'].contains c

namespace Layout

theorem isNumeric_of_mem_digitsOf (n : Nat) : ∀ c ∈ digitsOf n, isNumeric c = true := by
  intro c hc
  have hdigit : c.isDigit = true := Nat.isDigit_of_mem_toDigits (by decide) (by decide) hc
  rw [isNumeric, hdigit, Bool.true_or]

theorem isNumeric_of_mem_zeros (n : Nat) : ∀ c ∈ List.replicate n '0', isNumeric c = true := by
  intro c hc
  rw [List.eq_of_mem_replicate hc]
  rfl

theorem isNumeric_of_mem_exponentText (e : Int) :
    ∀ c ∈ plain.exponentText e, isNumeric c = true := by
  have hmark : ∀ c ∈ plain.exponentMark.toList, isNumeric c = true := List.all_eq_true.1 (by decide)
  have hsign : isNumeric (if e < 0 then '-' else '+') = true := by split <;> rfl
  have hdigits : ∀ c ∈ padZeros plain.exponentWidth (digitsOf e.natAbs), isNumeric c = true :=
    List.forall_mem_append.2 ⟨isNumeric_of_mem_zeros _, isNumeric_of_mem_digitsOf _⟩
  exact List.forall_mem_append.2 ⟨hmark, List.forall_mem_cons.2 ⟨hsign, hdigits⟩⟩

theorem isNumeric_of_mem_renderDecimal (d : Decimal) :
    ∀ c ∈ plain.renderDecimal d, isNumeric c = true := by
  have hdigits := isNumeric_of_mem_digitsOf d.digits
  have htail : ∀ c ∈ plain.integralTail.toList, isNumeric c = true := List.all_eq_true.1 (by decide)
  unfold renderDecimal
  dsimp only
  split
  · exact List.forall_mem_cons.2 ⟨rfl, htail⟩
  split
  · -- The number is written positionally.
    split
    · exact List.forall_mem_append.2
        ⟨List.forall_mem_append.2 ⟨hdigits, isNumeric_of_mem_zeros _⟩, htail⟩
    split
    · exact List.forall_mem_append.2 ⟨fun c hc => hdigits c (List.mem_of_mem_take hc),
        List.forall_mem_cons.2 ⟨rfl, fun c hc => hdigits c (List.mem_of_mem_drop hc)⟩⟩
    · exact List.forall_mem_append.2 ⟨List.forall_mem_cons.2 ⟨rfl, List.forall_mem_cons.2
        ⟨rfl, isNumeric_of_mem_zeros _⟩⟩, hdigits⟩
  · -- The number is written in scientific form.
    split
    · exact List.forall_mem_nil _
    · next c heq =>
      rw [heq] at hdigits
      exact List.forall_mem_cons.2
        ⟨hdigits c (List.mem_cons_self ..), isNumeric_of_mem_exponentText _⟩
    · next c rest _ heq =>
      rw [heq] at hdigits
      obtain ⟨hc, hrest⟩ := List.forall_mem_cons.1 hdigits
      exact List.forall_mem_append.2 ⟨List.forall_mem_cons.2 ⟨hc, List.forall_mem_cons.2
        ⟨rfl, hrest⟩⟩, isNumeric_of_mem_exponentText _⟩

theorem isNumeric_of_mem_render (x : Float) : ∀ c ∈ (plain.render x).toList, isNumeric c = true := by
  have hsign : ∀ c ∈ (if Binary.isNegative x then "-" else "").toList, isNumeric c = true := by
    split <;> exact List.all_eq_true.1 (by decide)
  unfold render
  dsimp only
  split
  · exact List.all_eq_true.1 (by decide)
  split
  · rw [String.toList_append]
    exact List.forall_mem_append.2 ⟨hsign, List.all_eq_true.1 (by decide)⟩
  · rw [String.toList_append, String.toList_ofList]
    exact List.forall_mem_append.2 ⟨hsign, isNumeric_of_mem_renderDecimal _⟩

end Layout

theorem Quoted.display_injective {text text' : List Char} (h : display text = display text') :
    text = text' := by
  have hread : ∀ text, StringReading.ofText (text.flatMap displayChar ++ [double]) =
      .closed text (1 + (text.flatMap displayChar).length) := by
    intro text
    rw [(encodes_display text).ofText_append, StringReading.ofText_quote]
    simp only [StringReading.behind, List.append_nil]
  have hcontents : text.flatMap displayChar ++ [double] = text'.flatMap displayChar ++ [double] :=
    (List.cons.inj h).2
  have hclosed := hread text
  rw [hcontents, hread text'] at hclosed
  cases hclosed
  rfl

namespace Value

/-- The values are equal, or they are numbers that are displayed alike. -/
inductive ShownAlike : Value → Value → Prop where
  | refl (v : Value) : ShownAlike v v
  | number {x y : Float} (h : displayNumber x = displayNumber y) : ShownAlike (number x) (number y)

theorem isNumeric_of_mem_displayNumber (x : Float) :
    ∀ c ∈ (displayNumber x).toList, isNumeric c = true := by
  have hnatural : ∀ n : Nat, ∀ c ∈ (toString n).toList, isNumeric c = true := by
    intro n
    rw [toList_toString_nat]
    exact Layout.isNumeric_of_mem_digitsOf n
  unfold displayNumber
  split
  · exact Layout.isNumeric_of_mem_render x
  split
  · exact Layout.isNumeric_of_mem_render x
  split
  · split
    · rw [String.toList_append]
      exact List.forall_mem_append.2 ⟨List.all_eq_true.1 (by decide), hnatural _⟩
    · exact hnatural _
  · exact Layout.isNumeric_of_mem_render x

/-- The kind of value that a display form stands for. -/
def displayedKind (text : List Char) : ValueKind :=
  if text.head? = some Quoted.double then .string
  else if text.all isNumeric then .number
  else if text = "null".toList then .null
  else .bool

/-- A display form says what kind of value it stands for. -/
theorem displayedKind_display {v : Value} (hv : v.Native) : displayedKind v.display.toList = v.kind := by
  cases v with
  | null => decide
  | bool b => cases b <;> decide
  | number x =>
    have hnumeric := isNumeric_of_mem_displayNumber x
    have hquote : (displayNumber x).toList.head? ≠ some Quoted.double := fun h =>
      absurd (hnumeric _ (List.mem_of_mem_head? h)) (by decide)
    rw [display, displayedKind, if_neg hquote, if_pos (List.all_eq_true.2 hnumeric), kind]
  | string s =>
    have hquote : (display (string s)).toList.head? = some Quoted.double := by
      rw [toList_display_string]
      rfl
    rw [displayedKind, if_pos hquote, kind]
  | foreign => exact absurd rfl hv

theorem ShownAlike.display_eq {v w : Value} (h : ShownAlike v w) : v.display = w.display := by
  cases h with
  | refl => rfl
  | number h => exact h

/-- Values of the language have the same display form if and only if they are equal, or are numbers that
are displayed alike. -/
theorem display_eq_iff {v w : Value} (hv : v.Native) (hw : w.Native) :
    v.display = w.display ↔ ShownAlike v w := by
  constructor
  · intro h
    have hkind : v.kind = w.kind := by
      rw [← displayedKind_display hv, h, displayedKind_display hw]
    cases v with
    | null =>
      cases w with
      | null => exact .refl _
      | _ => cases hkind
    | bool b =>
      cases w with
      | bool b' =>
        have hinjective : ∀ b b' : Bool, display (bool b) = display (bool b') → b = b' := by decide
        rw [hinjective b b' h]
        exact .refl _
      | _ => cases hkind
    | number x =>
      cases w with
      | number y => exact .number h
      | _ => cases hkind
    | string s =>
      cases w with
      | string s' =>
        have hcontents := congrArg String.toList h
        rw [toList_display_string, toList_display_string] at hcontents
        rw [String.toList_inj.1 (Quoted.display_injective hcontents)]
        exact .refl _
      | _ => cases hkind
    | foreign => exact absurd rfl hv
  · exact ShownAlike.display_eq

/-- A value of the language is displayed on a single line. -/
theorem newline_not_mem_display {v : Value} (hv : v.Native) : '\n' ∉ v.display.toList := by
  cases v with
  | null => decide
  | bool b => cases b <;> decide
  | number x => exact fun h => absurd (isNumeric_of_mem_displayNumber x _ h) (by decide)
  | string s =>
    rw [toList_display_string]
    exact (Quoted.not_mem_display s.toList).1
  | foreign => exact absurd rfl hv

end Value

end Curly
