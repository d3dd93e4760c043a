import OdeModel.Proofs.Text.Pieces

/-!
# Places in a text

A place in a text is the width of what stands before it. Looking for a character or for
the end of a bracket from a place on depends only on what stands behind the place.
-/

namespace OdeModel

namespace Text

theorem slice_width_append (before middle after : Text) :
    slice (before ++ (middle ++ after)) (width before) (width (before ++ middle)) = middle := by
  rw [slice, dropBytes_width_append, width_append, Nat.add_sub_cancel_left,
    takeBytes_width_append]

/-- The first place of a character is behind all that differ from it. -/
theorem find?_eq_some_iff {before rest : Text} {c : Char} {found : Nat} :
    find? (before ++ rest) (width before) c = some found ↔
      ∃ gap after, rest = gap ++ c :: after ∧ c ∉ gap ∧ found = width (before ++ gap) := by
  unfold find?
  rw [dropBytes_width_append]
  dsimp only
  constructor
  · intro h
    split at h
    next hshort =>
      cases h
      have hsplit := List.takeWhile_append_dropWhile (p := fun d => decide (d ≠ c)) (l := rest)
      have hstop := List.head?_dropWhile_not (fun d => decide (d ≠ c)) rest
      cases hrest : rest.dropWhile fun d => decide (d ≠ c) with
      | nil =>
          rw [hrest, List.append_nil] at hsplit
          rw [hsplit] at hshort
          exact absurd hshort (Nat.lt_irrefl _)
      | cons d after =>
          rw [hrest] at hstop hsplit
          obtain rfl : d = c := by simpa using hstop
          refine ⟨_, after, hsplit.symm, fun hmem => ?_, by rw [width_append]⟩
          simpa using List.mem_takeWhile_imp hmem
    next => contradiction
  · rintro ⟨gap, after, rfl, hgap, rfl⟩
    have htake : (gap ++ c :: after).takeWhile (fun d => decide (d ≠ c)) = gap := by
      rw [List.takeWhile_append_of_pos, List.takeWhile_cons_of_neg (by simp), List.append_nil]
      intro d hd
      simpa using fun heq : d = c => hgap (heq ▸ hd)
    rw [htake, width_append]
    simp

/-- The bracket at a place is closed where what stands behind it says so. -/
theorem matchingBracket_eq_some_iff {before rest : Text} {o : Char} (ho : isOpening o = true)
    {close : Nat} :
    matchingBracket (before ++ o :: rest) (width before) = some close ↔
      ∃ inside later, untilClosed 1 rest = some (inside, later) ∧
        close = width (before ++ o :: inside) := by
  rw [matchingBracket, dropBytes_width_append, untilClosed_open ho, Option.map_map,
    Option.map_eq_some_iff, Prod.exists]
  simp [eq_comm]

/-- Between a bracket and the one that closes it stands what the first one holds. -/
theorem slice_inside {o : Char} (ho : o.utf8Size = 1) (before inside later : Text) :
    slice (before ++ o :: (inside ++ later)) (width before + 1) (width (before ++ o :: inside)) =
      inside := by
  have hopen : width before + 1 = width (before ++ [o]) := by simp [ho]
  rw [hopen]
  simpa using slice_width_append (before ++ [o]) inside later

end Text

end OdeModel
