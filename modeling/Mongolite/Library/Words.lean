import Mathlib.Data.Nat.Digits.Lemmas
import Mathlib.Tactic.Ring

/-! # Numbers in words

A number to a base as words of a fixed count, the highest first: what appending
and zeros in front do, the last words of a number, and long division by a
number of one word.
-/

namespace Mongolite

def ofWords (base : ℕ) (ws : List ℕ) : ℕ := Nat.ofDigits base ws.reverse

def lastWords (base : ℕ) : ℕ → ℕ → List ℕ
  | 0, _ => []
  | k + 1, n => lastWords base k (n / base) ++ [n % base]

/-- The words of a quotient and the remainder; the remainder so far is carried along. -/
def longDivision (base divisor : ℕ) : ℕ → List ℕ → List ℕ × ℕ
  | r, [] => ([], r)
  | r, w :: ws =>
    let n := r * base + w
    let below := longDivision base divisor (n % divisor) ws
    (n / divisor % base :: below.1, below.2)

variable {base divisor : ℕ}

theorem ofWords_nil (base : ℕ) : ofWords base [] = 0 := Nat.ofDigits_nil

theorem ofWords_append (base : ℕ) (ws ws' : List ℕ) :
    ofWords base (ws ++ ws') = base ^ ws'.length * ofWords base ws + ofWords base ws' := by
  rw [ofWords, List.reverse_append, Nat.ofDigits_append, List.length_reverse, Nat.add_comm]
  rfl

theorem ofWords_singleton (base w : ℕ) : ofWords base [w] = w := Nat.ofDigits_singleton

theorem ofWords_cons (base w : ℕ) (ws : List ℕ) :
    ofWords base (w :: ws) = base ^ ws.length * w + ofWords base ws := by
  rw [← List.singleton_append, ofWords_append, ofWords_singleton]

theorem ofWords_lt {ws : List ℕ} (hbase : 1 < base) (h : ∀ w ∈ ws, w < base) :
    ofWords base ws < base ^ ws.length := by
  have hlt := Nat.ofDigits_lt_base_pow_length (l := ws.reverse) hbase
    fun w hw => h w (List.mem_reverse.mp hw)
  rwa [List.length_reverse] at hlt

theorem ofWords_replicate_zero (base k : ℕ) : ofWords base (List.replicate k 0) = 0 := by
  rw [ofWords, List.reverse_replicate, Nat.ofDigits_replicate_zero]

theorem ofWords_dropWhile (base : ℕ) (ws : List ℕ) :
    ofWords base (ws.dropWhile (· == 0)) = ofWords base ws := by
  induction ws with
  | nil => rfl
  | cons w ws ih =>
    by_cases hw : w = 0
    · subst hw
      rw [List.dropWhile_cons_of_pos (by rfl), ih, ofWords_cons, Nat.mul_zero, Nat.zero_add]
    · rw [List.dropWhile_cons_of_neg (by simpa using hw)]

theorem ne_zero_of_dropWhile {w : ℕ} {ws ws' : List ℕ} (h : ws'.dropWhile (· == 0) = w :: ws) :
    w ≠ 0 := by
  have hhead := List.head?_dropWhile_not (· == 0) ws'
  rw [h] at hhead
  simpa using hhead

theorem length_le_of_ofWords_lt {w k : ℕ} {ws : List ℕ} (hbase : 1 < base) (hw : w ≠ 0)
    (h : ofWords base (w :: ws) < base ^ k) : (w :: ws).length ≤ k := by
  have hle : base ^ ws.length ≤ ofWords base (w :: ws) := by
    rw [ofWords_cons]
    exact Nat.le_add_right_of_le (Nat.le_mul_of_pos_right _ (Nat.pos_of_ne_zero hw))
  exact (Nat.pow_lt_pow_iff_right hbase).mp (Nat.lt_of_le_of_lt hle h)

/-! ## The last words -/

@[simp] theorem length_lastWords (base k n : ℕ) : (lastWords base k n).length = k := by
  induction k generalizing n with
  | zero => rfl
  | succ k ih => rw [lastWords, List.length_append, ih, List.length_singleton]

theorem lt_of_mem_lastWords {k n w : ℕ} (hbase : 0 < base) (h : w ∈ lastWords base k n) :
    w < base := by
  induction k generalizing n with
  | zero => exact absurd h List.not_mem_nil
  | succ k ih =>
    rcases List.mem_append.mp h with h | h
    · exact ih h
    · rw [List.mem_singleton.mp h]
      exact Nat.mod_lt n hbase

theorem ofWords_lastWords {k n : ℕ} (h : n < base ^ k) : ofWords base (lastWords base k n) = n := by
  induction k generalizing n with
  | zero =>
    rw [Nat.pow_zero] at h
    rw [lastWords, ofWords_nil]
    omega
  | succ k ih =>
    have hdiv : n / base < base ^ k := Nat.div_lt_of_lt_mul (by rwa [Nat.pow_succ'] at h)
    rw [lastWords, ofWords_append, ih hdiv, ofWords_singleton, List.length_singleton, Nat.pow_one]
    exact Nat.div_add_mod n base

/-! ## Long division -/

theorem length_longDivision (r : ℕ) (ws : List ℕ) :
    (longDivision base divisor r ws).1.length = ws.length := by
  induction ws generalizing r with
  | nil => rfl
  | cons w ws ih => exact congrArg (· + 1) (ih _)

theorem lt_of_mem_longDivision {r w : ℕ} {ws : List ℕ} (hbase : 0 < base)
    (h : w ∈ (longDivision base divisor r ws).1) : w < base := by
  induction ws generalizing r with
  | nil => exact absurd h List.not_mem_nil
  | cons _ ws ih =>
    rcases List.mem_cons.mp h with rfl | h
    · exact Nat.mod_lt _ hbase
    · exact ih h

/-- The words are those of the quotient, and the remainder is the remainder. -/
theorem longDivision_spec {r : ℕ} {ws : List ℕ} (hr : r < divisor) (hws : ∀ w ∈ ws, w < base) :
    ofWords base (longDivision base divisor r ws).1 * divisor +
        (longDivision base divisor r ws).2 = base ^ ws.length * r + ofWords base ws ∧
      (longDivision base divisor r ws).2 < divisor := by
  induction ws generalizing r with
  | nil => exact ⟨by simp [longDivision, ofWords_nil], hr⟩
  | cons w ws ih =>
    rw [List.forall_mem_cons] at hws
    have hpos : 0 < divisor := Nat.zero_lt_of_lt hr
    obtain ⟨hsum, hlt⟩ := ih (Nat.mod_lt (r * base + w) hpos) hws.2
    refine ⟨?_, hlt⟩
    have hquotient : (r * base + w) / divisor < base := by
      refine Nat.div_lt_of_lt_mul ?_
      calc r * base + w < r * base + base := Nat.add_lt_add_left hws.1 _
        _ = (r + 1) * base := (Nat.succ_mul r base).symm
        _ ≤ divisor * base := Nat.mul_le_mul_right base hr
    have hdiv := Nat.div_add_mod (r * base + w) divisor
    simp only [longDivision]
    rw [ofWords_cons, ofWords_cons, length_longDivision, Nat.mod_eq_of_lt hquotient,
      List.length_cons, Nat.pow_succ]
    calc (base ^ ws.length * ((r * base + w) / divisor) +
          ofWords base (longDivision base divisor ((r * base + w) % divisor) ws).1) * divisor +
          (longDivision base divisor ((r * base + w) % divisor) ws).2
        = base ^ ws.length * (divisor * ((r * base + w) / divisor)) +
          (base ^ ws.length * ((r * base + w) % divisor) + ofWords base ws) := by
          rw [← hsum]
          ring
      _ = base ^ ws.length * (r * base + w) + ofWords base ws := by
          rw [← Nat.add_assoc, ← Nat.mul_add, hdiv]
      _ = base ^ ws.length * base * r + (base ^ ws.length * w + ofWords base ws) := by ring

theorem longDivision_eq {ws : List ℕ} (hdivisor : 0 < divisor) (hws : ∀ w ∈ ws, w < base) :
    ofWords base (longDivision base divisor 0 ws).1 = ofWords base ws / divisor ∧
      (longDivision base divisor 0 ws).2 = ofWords base ws % divisor := by
  obtain ⟨hsum, hlt⟩ := longDivision_spec hdivisor hws
  rw [Nat.mul_zero, Nat.zero_add] at hsum
  rw [← hsum, Nat.add_comm, Nat.add_mul_div_right _ _ hdivisor, Nat.div_eq_of_lt hlt,
    Nat.add_mul_mod_self_right, Nat.mod_eq_of_lt hlt, Nat.zero_add]
  exact ⟨rfl, rfl⟩

end Mongolite
