import Mongolite.Driver.Cursor
import Mongolite.Library.RNumeric

/-! # Draining a cursor into a connection

`mongo_dump` and `mongo_export` take the documents of a cursor in pages and write
each page before the next one is taken. A page that the cursor fails in is not
written at all.
-/

namespace Mongolite

variable {δ β γ : Type} {docs : List δ} {failure : Option String} {n fuel : ℕ} {toR : δ → β}

/-- The next documents, each made into an element by `toR`, at most `n`. -/
def nextDocuments (toR : δ → β) (n : Numeric) (c : Cursor δ) :
    Except String (List β) × Cursor δ :=
  match n.asInteger with
  -- `NA_integer_` is the smallest `int`
  | none => (.error "negative length vectors are not allowed", c)
  | some len =>
    if len < 0 then (.error "negative length vectors are not allowed", c)
    else
      let (list, c') := advance len.toNat c
      if (list.length : ℤ) < len then
        match mongocCursorError c' with
        | some e => (.error e, c')
        -- cursor exhausted: done
        | none => (.ok (list.map toR), c')
      else (.ok (list.map toR), c')

/-- The loop over the pages that `next` takes, with the count and what was written so far; `none`
means that it did not end within `fuel` rounds. -/
def writePages (next : Numeric → Cursor δ → Except String (List β) × Cursor δ)
    (write : List β → List γ) (pagesize : ℕ) :
    ℕ → Cursor δ → ℕ → List γ → Option (Except String ℕ × List γ)
  | 0, _, _, _ => none
  | fuel + 1, cur, count, out =>
    match next (.real pagesize) cur with
    | (.error e, _) => some (.error e, out)
    | (.ok page, cur') =>
      if page.length < pagesize then some (.ok (count + page.length), out ++ write page)
      else writePages next write pagesize fuel cur' (count + page.length) (out ++ write page)

theorem nextDocuments_full (hmax : n < 2 ^ 31) (h : n ≤ docs.length) :
    nextDocuments toR (.real n) (.fresh docs failure) =
      (.ok ((docs.take n).map toR), .fresh (docs.drop n) failure) := by
  have hlen : (docs.take n).length = n := by simp [h]
  rw [nextDocuments, Numeric.asInteger_natCast hmax]
  simp [advance_of_le h, hlen]

theorem nextDocuments_last (hmax : n < 2 ^ 31) (h : docs.length < n) :
    nextDocuments toR (.real n) (.fresh docs failure) =
      (match failure with
        | some e => .error e
        | none => .ok (docs.map toR), ⟨[], failure, true, failure, 0⟩) := by
  rw [nextDocuments, Numeric.asInteger_natCast hmax]
  simp only [Int.toNat_natCast, advance_of_lt h, mongocCursorError, Nat.cast_lt, h, if_true]
  cases failure <;> simp

/-- The documents of the pages that are written. -/
def dumped (failure : Option String) (n : ℕ) (docs : List δ) : List δ :=
  if failure = none then docs else docs.take (docs.length / n * n)

theorem dumped_of_lt (h : docs.length < n) :
    dumped failure n docs = if failure = none then docs else [] := by
  rw [dumped, Nat.div_eq_of_lt h, Nat.zero_mul, List.take_zero]

theorem dumped_of_le (hn : 0 < n) (h : n ≤ docs.length) :
    dumped failure n docs = docs.take n ++ dumped failure n (docs.drop n) := by
  unfold dumped
  split
  · rw [List.take_append_drop]
  · have hdiv : docs.length / n * n = n + (docs.length - n) / n * n := by
      rw [Nat.div_eq_sub_div hn h, Nat.succ_mul, Nat.add_comm]
    rw [List.length_drop, hdiv, List.take_add]

/-- What is written page by page is what all the pages together make. -/
theorem writePages_fresh {write : List β → List γ} (hnil : write [] = [])
    (happend : ∀ xs ys, write (xs ++ ys) = write xs ++ write ys) (hn : 0 < n) (hmax : n < 2 ^ 31)
    (count : ℕ) (out : List γ) (hfuel : docs.length < fuel) :
    writePages (nextDocuments toR) write n fuel (.fresh docs failure) count out =
      some (failure.elim (.ok (count + docs.length)) .error,
        out ++ write ((dumped failure n docs).map toR)) := by
  induction fuel generalizing docs count out with
  | zero => exact absurd hfuel (Nat.not_lt_zero _)
  | succ fuel ih =>
    rw [writePages]
    rcases Nat.lt_or_ge docs.length n with hlt | hge
    · rw [nextDocuments_last hmax hlt, dumped_of_lt hlt]
      cases failure with
      | some e => simp [hnil]
      | none => simp [hlt]
    · rw [nextDocuments_full hmax hge, dumped_of_le hn hge]
      have hlen : ((docs.take n).map toR).length = n := by simp [hge]
      have hdrop : (docs.drop n).length < fuel := by
        rw [List.length_drop]
        omega
      have hcount : count + n + (docs.drop n).length = count + docs.length := by
        rw [List.length_drop]
        omega
      simp only [hlen, Nat.lt_irrefl, if_false]
      rw [ih _ _ hdrop, hcount, List.map_append, happend, ← List.append_assoc]

end Mongolite
