import Mongolite.Driver.Cursor
import Mongolite.Library.RNumeric

/-! # Reading a page from a cursor

`R_mongo_cursor_next_page` advances a cursor by at most a page. It tells a full
page, a short one, the end and a failure apart.
-/

namespace Mongolite

variable {δ β : Type} {toR : δ → β} {docs : List δ} {failure : Option String} {n : ℕ}

/-- The next page of at most `size` documents, each converted by `toR`; the empty page is `NULL`. -/
def rMongoCursorNextPage (toR : δ → β) (size : Numeric) (c : Cursor δ) :
    Except String (List β) × Cursor δ :=
  match size.asInteger with
  -- `NA_integer_` is the smallest `int`
  | none => (.error "negative length vectors are not allowed", c)
  | some n =>
    if n < 0 then (.error "negative length vectors are not allowed", c)
    else
      let (list, c') := advance n.toNat c
      -- the iterator is exhausted
      if list.length = 0 then
        match mongocCursorError c' with
        | some e => (.error e, c')
        | none => (.ok [], c')
      -- found a full page
      else if (list.length : ℤ) = n then (.ok (list.map toR), c')
      -- not a full page, also check for errors
      else
        match mongocCursorError c' with
        | some e => (.error e, c')
        | none => (.ok (list.map toR), c')

theorem nextPage_full (hn : 0 < n) (hmax : n < 2 ^ 31) (h : n ≤ docs.length) :
    rMongoCursorNextPage toR (.real n) (.fresh docs failure) =
      (.ok ((docs.take n).map toR), .fresh (docs.drop n) failure) := by
  have hlen : (docs.take n).length = n := by simp [h]
  rw [rMongoCursorNextPage, Numeric.asInteger_natCast hmax]
  simp only [Int.toNat_natCast, advance_of_le h, hlen]
  simp [hn.ne']

theorem nextPage_last (hmax : n < 2 ^ 31) (h : docs.length < n) :
    rMongoCursorNextPage toR (.real n) (.fresh docs failure) =
      (match failure with
        | some e => .error e
        | none => .ok (docs.map toR), ⟨[], failure, true, failure, 0⟩) := by
  have hpos : ¬ (n : ℤ) < 0 := by omega
  have hne : (docs.length : ℤ) ≠ n := by omega
  rw [rMongoCursorNextPage, Numeric.asInteger_natCast hmax]
  simp only [Int.toNat_natCast, advance_of_lt h, mongocCursorError, hpos, hne, if_false]
  cases docs with
  | nil => cases failure <;> rfl
  | cons d ds => cases failure <;> rfl

end Mongolite
