import Mathlib.Data.List.Basic

/-!
# Places in a text by bytes

A text as its characters, and places in it as numbers of bytes of its UTF-8 form. A place between two characters is a
`Boundary`; between boundaries a text may be cut and put together again. `applyEdits` makes replacements from the last
to the first, so that the places of the others stay what they are, and comes to the same as writing the text out from
its beginning (`applyEdits_eq`).
-/

namespace Assure.Library

/-- The number of bytes of a text. -/
def byteLength : List Char → Nat
  | [] => 0
  | c :: text => c.utf8Size + byteLength text

/-- The text up to a place. -/
def byteTake : Nat → List Char → List Char
  | 0, _ => []
  | _ + 1, [] => []
  | n + 1, c :: text => c :: byteTake (n + 1 - c.utf8Size) text

/-- The text from a place on. -/
def byteDrop : Nat → List Char → List Char
  | 0, text => text
  | _ + 1, [] => []
  | n + 1, c :: text => byteDrop (n + 1 - c.utf8Size) text

/-- The text between two places. -/
def byteSlice (start stop : Nat) (text : List Char) : List Char := byteDrop start (byteTake stop text)

/-- **A place between two characters.** -/
def Boundary (text : List Char) (n : Nat) : Prop := ∃ front back, text = front ++ back ∧ byteLength front = n

/-! ## Cutting at boundaries -/

/-- The empty text has no bytes. -/
@[simp] theorem byteLength_nil : byteLength [] = 0 := rfl

/-- A character adds the bytes of its encoding. -/
@[simp] theorem byteLength_cons (c : Char) (text : List Char) :
    byteLength (c :: text) = c.utf8Size + byteLength text := rfl

/-- Texts behind each other have the bytes of both. -/
@[simp] theorem byteLength_append (text text' : List Char) :
    byteLength (text ++ text') = byteLength text + byteLength text' := by
  induction text with
  | nil => exact (Nat.zero_add _).symm
  | cons c text ih => rw [List.cons_append, byteLength_cons, ih, byteLength_cons, Nat.add_assoc]

/-- Only the empty text has no bytes, since every character has at least one. -/
theorem byteLength_eq_zero {text : List Char} : byteLength text = 0 ↔ text = [] := by
  cases text with
  | nil => exact iff_of_true rfl rfl
  | cons c text =>
    have := c.utf8Size_pos
    rw [byteLength_cons]
    exact iff_of_false (by omega) (List.cons_ne_nil _ _)

/-- Taking no bytes takes nothing. -/
@[simp] theorem byteTake_zero (text : List Char) : byteTake 0 text = [] := by cases text <;> rfl

/-- Taking as many bytes as the front has takes the front. -/
theorem byteTake_append (front back : List Char) : byteTake (byteLength front) (front ++ back) = front := by
  induction front with
  | nil => cases back <;> rfl
  | cons c front ih =>
    obtain ⟨n, hn⟩ : ∃ n, byteLength (c :: front) = n + 1 :=
      Nat.exists_eq_succ_of_ne_zero (mt byteLength_eq_zero.mp (List.cons_ne_nil _ _))
    rw [hn, List.cons_append, byteTake, ← hn, byteLength_cons, Nat.add_sub_cancel_left, ih]

/-- Dropping no bytes drops nothing. -/
theorem byteDrop_zero (text : List Char) : byteDrop 0 text = text := by cases text <;> rfl

/-- Dropping as many bytes as the front has leaves the back. -/
theorem byteDrop_append (front back : List Char) : byteDrop (byteLength front) (front ++ back) = back := by
  induction front with
  | nil => exact byteDrop_zero back
  | cons c front ih =>
    obtain ⟨n, hn⟩ : ∃ n, byteLength (c :: front) = n + 1 :=
      Nat.exists_eq_succ_of_ne_zero (mt byteLength_eq_zero.mp (List.cons_ne_nil _ _))
    rw [hn, List.cons_append, byteDrop, ← hn, byteLength_cons, Nat.add_sub_cancel_left, ih]

/-- A slice between the ends of a part is the part. -/
theorem byteSlice_append (front middle back : List Char) :
    byteSlice (byteLength front) (byteLength front + byteLength middle) (front ++ middle ++ back) = middle := by
  rw [byteSlice, ← byteLength_append, byteTake_append, byteDrop_append]

/-- What is taken and what is left make up the text, wherever it is cut. -/
theorem byteTake_append_byteDrop (n : Nat) (text : List Char) : byteTake n text ++ byteDrop n text = text := by
  induction text generalizing n with
  | nil => cases n <;> rfl
  | cons c text ih =>
    cases n with
    | zero => rfl
    | succ n => rw [byteTake, byteDrop, List.cons_append, ih]

/-- A place is a boundary if what is in front of it takes as many bytes. -/
theorem boundary_iff {text : List Char} {n : Nat} : Boundary text n ↔ byteLength (byteTake n text) = n := by
  constructor
  · intro h
    obtain ⟨front, back, rfl, rfl⟩ := h
    rw [byteTake_append]
  · intro h
    exact ⟨byteTake n text, byteDrop n text, (byteTake_append_byteDrop n text).symm, h⟩

instance (text : List Char) (n : Nat) : Decidable (Boundary text n) := decidable_of_iff' _ boundary_iff

namespace Boundary

variable {text : List Char} {k m n : Nat}

/-- The start of a text is a boundary between characters. -/
theorem zero (text : List Char) : Boundary text 0 := ⟨[], text, rfl, rfl⟩

/-- **Two boundaries** cut a text in three. -/
theorem three (hm : Boundary text m) (hn : Boundary text n) (hle : m ≤ n) : ∃ front middle back,
    text = front ++ middle ++ back ∧ byteLength front = m ∧ byteLength front + byteLength middle = n := by
  obtain ⟨front, back, hsplit, rfl⟩ := hm
  obtain ⟨front', back', rfl, rfl⟩ := hn
  rcases List.append_eq_append_iff.mp hsplit with ⟨middle, rfl, rfl⟩ | ⟨middle, rfl, rfl⟩
  · have hnil : middle = [] := byteLength_eq_zero.mp (by rw [byteLength_append] at hle; omega)
    subst hnil
    exact ⟨front', [], back, by simp, by simp, by simp⟩
  · exact ⟨front, middle, back', rfl, rfl, (byteLength_append _ _).symm⟩

/-- Between two boundaries, the longer front is the shorter one and the slice behind it. -/
theorem take_slice (hm : Boundary text m) (hn : Boundary text n) (hle : m ≤ n) :
    byteTake n text = byteTake m text ++ byteSlice m n text := by
  obtain ⟨front, middle, back, rfl, rfl, rfl⟩ := hm.three hn hle
  rw [byteSlice_append, ← byteLength_append, byteTake_append, List.append_assoc, byteTake_append]

/-- The longer rest is the slice and the shorter rest behind it. -/
theorem slice_drop (hm : Boundary text m) (hn : Boundary text n) (hle : m ≤ n) :
    byteDrop m text = byteSlice m n text ++ byteDrop n text := by
  obtain ⟨front, middle, back, rfl, rfl, rfl⟩ := hm.three hn hle
  rw [byteSlice_append, ← byteLength_append, byteDrop_append, List.append_assoc, byteDrop_append]

/-- A slice between two boundaries has as many bytes as lie between them. -/
theorem byteLength_slice (hm : Boundary text m) (hn : Boundary text n) (hle : m ≤ n) :
    byteLength (byteSlice m n text) = n - m := by
  obtain ⟨front, middle, back, rfl, rfl, rfl⟩ := hm.three hn hle
  rw [byteSlice_append, Nat.add_sub_cancel_left]

/-- Slices that meet at a boundary make up one slice. -/
theorem slice_slice (hk : Boundary text k) (hm : Boundary text m) (hn : Boundary text n) (hkm : k ≤ m) (hmn : m ≤ n) :
    byteSlice k n text = byteSlice k m text ++ byteSlice m n text := by
  have hdrop := hk.slice_drop hn (Nat.le_trans hkm hmn)
  rw [hk.slice_drop hm hkm, hm.slice_drop hn hmn, ← List.append_assoc] at hdrop
  exact (List.append_cancel_right hdrop).symm

/-- What stands in front of a boundary does not change when the text behind it does. -/
theorem take_take (hm : Boundary text m) (hn : Boundary text n) (hle : m ≤ n) (back : List Char) :
    byteTake m (byteTake n text ++ back) = byteTake m text := by
  obtain ⟨front, middle, rest, rfl, rfl, rfl⟩ := hm.three hn hle
  rw [← byteLength_append, byteTake_append, List.append_assoc, List.append_assoc, byteTake_append, byteTake_append]

/-- Behind a front that was cut at a boundary stands what was set there. -/
theorem drop_take (hn : Boundary text n) (back : List Char) : byteDrop n (byteTake n text ++ back) = back := by
  obtain ⟨front, rest, rfl, rfl⟩ := hn
  rw [byteTake_append, byteDrop_append]

end Boundary

/-! ## Characters of one byte -/

/-- A text has at least as many bytes as characters. -/
theorem length_le_byteLength (text : List Char) : text.length ≤ byteLength text := by
  induction text with
  | nil => exact Nat.le_refl _
  | cons c text ih =>
    have := c.utf8Size_pos
    rw [List.length_cons, byteLength_cons]
    omega

/-- **A text has as many bytes as characters** if each takes one byte. -/
theorem byteLength_eq_length {text : List Char} : byteLength text = text.length ↔ ∀ c ∈ text, c.utf8Size = 1 := by
  induction text with
  | nil => simp
  | cons c text ih =>
    have hpos := c.utf8Size_pos
    have hle := length_le_byteLength text
    rw [byteLength_cons, List.length_cons, List.forall_mem_cons, ← ih]
    omega

section Slices

variable {text : List Char} {k m n : Nat}

/-- **A slice cut by bytes as if they were characters** starts where it should if every character in front takes one
byte. -/
theorem drop_byteSlice_iff (hk : Boundary text k) (hm : Boundary text m) (hn : Boundary text n) (hkm : k ≤ m)
    (hmn : m < n) :
    (byteSlice k n text).drop (m - k) = byteSlice m n text ↔ ∀ c ∈ byteSlice k m text, c.utf8Size = 1 := by
  have hlength := hk.byteLength_slice hm hkm
  have hle := length_le_byteLength (byteSlice k m text)
  have hback : 0 < (byteSlice m n text).length := by
    refine List.length_pos_iff.mpr fun hnil => ?_
    have := hm.byteLength_slice hn (Nat.le_of_lt hmn)
    rw [hnil, byteLength_nil] at this
    omega
  rw [← byteLength_eq_length, hk.slice_slice hm hn hkm (Nat.le_of_lt hmn), List.drop_append,
    List.drop_of_length_le (by omega),
    List.nil_append]
  constructor
  · intro h
    have := congrArg List.length h
    rw [List.length_drop] at this
    omega
  · intro h
    rw [show m - k - (byteSlice k m text).length = 0 by omega, List.drop_zero]

/-- Then it also ends where it should. -/
theorem take_byteSlice (hk : Boundary text k) (hm : Boundary text m) (hn : Boundary text n) (hkm : k ≤ m) (hmn : m ≤ n)
    (h : ∀ c ∈ byteSlice k m text, c.utf8Size = 1) : (byteSlice k n text).take (m - k) = byteSlice k m text := by
  have hlength := hk.byteLength_slice hm hkm
  rw [byteLength_eq_length.mpr h] at hlength
  rw [hk.slice_slice hm hn hkm hmn, ← hlength, List.take_left]

end Slices

/-! ## Edits -/

/-- **A replacement** of the text between two places. -/
structure ByteEdit where
  start : Nat
  stop : Nat
  text : List Char

/-- `data[:start] + text + data[end:]` -/
def ByteEdit.apply (data : List Char) (e : ByteEdit) : List Char :=
  byteTake e.start data ++ e.text ++ byteDrop e.stop data

/-- The edits one after another, the last one first. -/
def applyEdits (edits : List ByteEdit) (data : List Char) : List Char := edits.reverse.foldl ByteEdit.apply data

/-- **The text written out** from a place on: what is between the edits is copied. -/
def writeOut (data : List Char) : Nat → List ByteEdit → List Char
  | place, [] => byteDrop place data
  | place, e :: edits => byteSlice place e.start data ++ e.text ++ writeOut data e.stop edits

/-- **Edits in order** from a place on, at boundaries. -/
def EditsInOrder (data : List Char) : Nat → List ByteEdit → Prop
  | _, [] => True
  | place, e :: edits => place ≤ e.start ∧ e.start ≤ e.stop ∧ Boundary data e.start ∧ Boundary data e.stop ∧
    EditsInOrder data e.stop edits

/-- Edits that are in order from some place on are so from any earlier one. -/
theorem EditsInOrder.mono {data : List Char} {place place' : Nat} {edits : List ByteEdit} (hle : place' ≤ place)
    (h : EditsInOrder data place edits) : EditsInOrder data place' edits := by
  cases edits with
  | nil => trivial
  | cons e edits => exact ⟨Nat.le_trans hle h.1, h.2⟩

/-- **Edits in order come to the text written out.** -/
theorem applyEdits_eq {data : List Char} {place : Nat} {edits : List ByteEdit} (hfrom : Boundary data place)
    (h : EditsInOrder data place edits) : applyEdits edits data = byteTake place data ++ writeOut data place edits := by
  induction edits generalizing place with
  | nil => exact (byteTake_append_byteDrop place data).symm
  | cons e edits ih =>
    obtain ⟨hstart, hstop, hbegin, hend, hrest⟩ := h
    have hedits := ih hend hrest
    rw [applyEdits, List.reverse_cons, List.foldl_append, ← applyEdits, hedits, List.foldl_cons, List.foldl_nil,
      ByteEdit.apply, hbegin.take_take hend hstop, hend.drop_take, hfrom.take_slice hbegin hstart, writeOut]
    simp only [List.append_assoc]

end Assure.Library
