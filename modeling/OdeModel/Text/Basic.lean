/-!
# Text and byte positions

A text is the list of its characters. Positions in a text, such as the column
of an error or the place of a name, are counted in bytes of its UTF-8 form, so
a character has a width and a text is cut by `takeBytes` and `dropBytes`.
-/

namespace OdeModel

/-- A text, character by character. -/
abbrev Text := List Char

namespace Text

/-- Number of bytes of the UTF-8 form. -/
def width : Text → Nat
  | [] => 0
  | c :: rest => c.utf8Size + width rest

/-- The text before byte position `n`; all of it when `n` is past the end. -/
def takeBytes : Nat → Text → Text
  | _, [] => []
  | n, c :: rest => if n = 0 then [] else c :: takeBytes (n - c.utf8Size) rest

/-- The text from byte position `n` on; nothing when `n` is past the end. -/
def dropBytes : Nat → Text → Text
  | _, [] => []
  | n, c :: rest => if n = 0 then c :: rest else dropBytes (n - c.utf8Size) rest

/-- The text from byte position `n` on; nothing at all when `n` is past the end
or inside of a character. -/
def suffix? : Nat → Text → Option Text
  | 0, s => some s
  | _ + 1, [] => none
  | n + 1, c :: rest => if n + 1 < c.utf8Size then none else suffix? (n + 1 - c.utf8Size) rest

/-- The text between two byte positions. -/
def slice (s : Text) (start stop : Nat) : Text :=
  takeBytes (stop - start) (dropBytes start s)

/-- The text with the bytes from `start` to `stop` exchanged for `new`. -/
def splice (s : Text) (start stop : Nat) (new : Text) : Text :=
  takeBytes start s ++ new ++ dropBytes stop s

/-- The text without the longest ending made of characters with property `p`. -/
def dropEndWhile (p : Char → Bool) (s : Text) : Text :=
  (s.reverse.dropWhile p).reverse

/-- Byte position of the first `c` at or after position `start`. -/
def find? (s : Text) (start : Nat) (c : Char) : Option Nat :=
  let rest := dropBytes start s
  let before := rest.takeWhile (· ≠ c)
  if before.length < rest.length then some (start + width before) else none

/-- The pieces between the cut characters, each with its byte position. A cut
character belongs to no piece, and there is one piece more than there are cuts. -/
def fields (isCut : Char → Bool) : Nat → Text → List (Nat × Text)
  | offset, [] => [(offset, [])]
  | offset, c :: rest =>
      if isCut c then
        (offset, []) :: fields isCut (offset + c.utf8Size) rest
      else
        match fields isCut (offset + c.utf8Size) rest with
        | [] => [(offset, [c])]
        | (_, piece) :: later => (offset, c :: piece) :: later

@[simp] theorem width_nil : width [] = 0 := rfl

@[simp] theorem width_cons (c : Char) (s : Text) : width (c :: s) = c.utf8Size + width s := rfl

@[simp] theorem width_append (s t : Text) : width (s ++ t) = width s + width t := by
  induction s with
  | nil => simp
  | cons c s ih => simp [ih, Nat.add_assoc]

@[simp] theorem dropBytes_zero (s : Text) : dropBytes 0 s = s := by
  cases s <;> simp [dropBytes]

@[simp] theorem takeBytes_zero (s : Text) : takeBytes 0 s = [] := by
  cases s <;> simp [takeBytes]

/-- Cutting right after `s` gives back what follows it. -/
@[simp] theorem dropBytes_width_append (s t : Text) : dropBytes (width s) (s ++ t) = t := by
  induction s with
  | nil => simp
  | cons c s ih =>
      have h : c.utf8Size + width s ≠ 0 := by have := c.utf8Size_pos; omega
      simp only [List.cons_append, dropBytes, width_cons, h, if_false]
      rw [Nat.add_sub_cancel_left]
      exact ih

/-- A suffix at a position is what is left when the text before it is dropped. -/
theorem suffix?_width_append (s t : Text) : suffix? (width s) (s ++ t) = some t := by
  induction s with
  | nil => cases t <;> rfl
  | cons c s ih =>
      obtain ⟨n, hn⟩ : ∃ n, width (c :: s) = n + 1 :=
        ⟨width (c :: s) - 1, by have := c.utf8Size_pos; simp; omega⟩
      have h : ¬ n + 1 < c.utf8Size := by simp at hn; omega
      rw [hn, List.cons_append]
      unfold suffix?
      rw [if_neg h, ← hn]
      simpa using ih

/-- Cutting right after `s` gives back `s`. -/
@[simp] theorem takeBytes_width_append (s t : Text) : takeBytes (width s) (s ++ t) = s := by
  induction s with
  | nil => simp
  | cons c s ih =>
      have h : c.utf8Size + width s ≠ 0 := by have := c.utf8Size_pos; omega
      simp only [List.cons_append, takeBytes, width_cons, h, if_false]
      rw [Nat.add_sub_cancel_left, ih]

end Text

end OdeModel
