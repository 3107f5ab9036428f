import Mongolite.Bson.Reader

/-! # What the reader gives back

However the bytes arrive, the reader answers by the front of the stream it has
still to read: with the next document, with a failure, or with the end of the
stream, which it also reports when the stream is cut off inside a document.
-/

namespace Mongolite

variable {read : ReadFunc} {ok : ℕ → Prop} {raises : Prop} {r : BsonReader} {con : Connection}
  {bs : List UInt8} {len n : ℕ} {blen : ℤ} {d : Bson}

/-- No document of the stream, nor the length prefix of its rest, declares more than a GiB. -/
def Moderate (bs : List UInt8) : Prop :=
  (∀ d ∈ bsonFraming.frames bs, d.bytes.length ≤ 2 ^ 30) ∧
    readI32le (bsonFraming.rest bs) ≤ 2 ^ 30

theorem Moderate.readI32le_le (h : Moderate bs) : readI32le bs ≤ 2 ^ 30 := by
  by_cases hframe : ∃ d, bsonFront bs = .frame d
  · obtain ⟨d, hd⟩ := hframe
    have hmem : d ∈ bsonFraming.frames bs := by
      rw [bsonFraming.frames_of_frame hd]
      exact List.mem_cons_self
    obtain ⟨cs, rfl⟩ := prefix_of_bsonFront hd
    rw [d.readI32le_append]
    exact_mod_cast h.1 d hmem
  · have hrest : bsonFraming.rest bs = bs :=
      bsonFraming.rest_of_stop fun d hd => hframe ⟨d, hd⟩
    rw [← hrest]
    exact h.2

theorem Moderate.drop (h : Moderate bs) (hd : bsonFront bs = .frame d) :
    Moderate (bs.drop d.bytes.length) := by
  rw [Moderate, bsonFraming.frames_of_frame hd, bsonFraming.rest_of_frame hd] at h
  exact ⟨fun d' hd' => h.1 d' (List.mem_cons_of_mem d hd'), h.2⟩

/-- A read function that hands out the stream in non-empty pieces when the count asked for is
`ok`, and raises otherwise. -/
structure Delivers (read : ReadFunc) (ok : ℕ → Prop) : Prop where
  deliver : ∀ (con : Connection) (count : ℕ), 0 < count → ok count →
    ∃ piece con', read con count = .ok (some piece, con') ∧ piece ++ con'.rest = con.rest ∧
      piece.length ≤ count ∧ (piece = [] → con.rest = [])
  refuse : ∀ (con : Connection) (count : ℕ), ¬ ok count → count < 2 ^ 32 →
    ∃ e, read con count = .error e

theorem Connection.read_spec (con : Connection) {count : ℕ} (h : 0 < count) :
    (con.read count).1 ++ (con.read count).2.rest = con.rest ∧
      (con.read count).1.length ≤ count ∧ ((con.read count).1 = [] → con.rest = []) := by
  refine ⟨List.take_append_drop _ _, ?_, ?_⟩
  · simp only [Connection.read, List.length_take]
    omega
  · intro hnil
    rcases List.take_eq_nil_iff.mp hnil with hzero | hrest
    · omega
    · exact hrest

theorem delivers_fdRead : Delivers bsonReaderHandleFdRead fun _ => True where
  deliver con _ hpos _ := ⟨_, _, rfl, con.read_spec hpos⟩
  refuse _ _ h := absurd trivial h

theorem delivers_feed : Delivers bsonReaderFeed (· < 2 ^ 31) where
  deliver con count hpos hok := by
    rw [bsonReaderFeed, toInt32_of_lt hok, if_neg (by omega)]
    exact ⟨_, _, rfl, con.read_spec hpos⟩
  refuse con count hok hlt := by
    have hneg : toInt32 count < 0 := toInt32_neg (by omega) hlt
    exact ⟨_, by rw [bsonReaderFeed, if_pos hneg]⟩

/-- Why the signed comparisons are right for a buffer of `len` bytes: the lengths declared stay
below a GiB, the stream is shorter than 2 GiB, or a read that would need more than 2 GiB raises. -/
def Roomy (ok : ℕ → Prop) (raises : Prop) (bs : List UInt8) (len : ℕ) : Prop :=
  (Moderate bs ∧ len ≤ 2 ^ 30 ∧ ∀ c ≤ 2 ^ 30, ok c) ∨
    (bs.length < 2 ^ 31 ∧ ∀ c, ok c) ∨
    (raises ∧ len ≤ 2 ^ 31 ∧ ∀ c, ok c ↔ c < 2 ^ 31)

structure Reading (ok : ℕ → Prop) (raises : Prop) (r : BsonReader) (bs : List UInt8) : Prop where
  stream : r.ahead ++ r.handle.rest = bs
  offset_le : r.offset ≤ r.data.length
  data_le : r.data.length ≤ r.len
  sound : r.failed = false
  pow : ∃ k, r.len = 2 ^ (k + 10)
  roomy : Roomy ok raises bs r.len
  ended : r.done = true → bsonFront bs = .clean ∨ bsonFront bs = .cut

/-- What a refill leaves: the same stream, with more of it read ahead unless it is at its end. -/
structure Filled (r r' : BsonReader) (bs : List UInt8) : Prop where
  stream : r'.ahead ++ r'.handle.rest = bs
  offset_le : r'.offset ≤ r'.data.length
  data_le : r'.data.length ≤ r'.len
  sound : r'.failed = false
  len_eq : r'.len = r.len
  progress : (r'.done = true ∧ r'.handle.rest = [] ∧ r.ahead = bs) ∨
    (r'.done = false ∧ r'.handle.rest.length < r.handle.rest.length)

theorem fillBuffer_spec (hread : Delivers read ok) (hstream : r.ahead ++ r.handle.rest = bs)
    (hdone : r.done = false) (hsound : r.failed = false) (hlt : r.ahead.length < r.len)
    (hok : ok (r.len - r.ahead.length)) :
    ∃ r', bsonReaderHandleFillBuffer read r = .ok r' ∧ Filled r r' bs := by
  obtain ⟨piece, con', heq, hpiece, hle, hnil⟩ :=
    hread.deliver r.handle (r.len - r.ahead.length) (by omega) hok
  by_cases hfirst : r.offset = 0 ∧ r.data = []
  · have hahead : r.ahead = [] := by simp [BsonReader.ahead, hfirst.2]
    rw [hahead, List.length_nil, Nat.sub_zero] at heq
    rw [bsonReaderHandleFillBuffer, if_pos ⟨hdone, hfirst⟩, heq]
    cases piece with
    | nil =>
      have hrest : r.handle.rest = [] := hnil rfl
      have hcon : con'.rest = [] := by simpa [hrest] using hpiece
      refine ⟨_, rfl, ?_, ?_, ?_, hsound, rfl, .inl ⟨rfl, hcon, ?_⟩⟩ <;>
        simp_all [BsonReader.ahead]
    | cons b piece =>
      have hlen : (r.handle.rest).length = (b :: piece).length + con'.rest.length := by
        rw [← hpiece, List.length_append]
      refine ⟨_, rfl, ?_, ?_, ?_, hsound, rfl, .inr ⟨hdone, ?_⟩⟩
      · rw [hahead, List.nil_append] at hstream
        simpa [BsonReader.ahead, hfirst.1, ← hstream] using hpiece
      · simp [hfirst.1]
      · simp only [hahead, List.length_nil, Nat.sub_zero] at hle
        exact hle
      · simp only [List.length_cons] at hlen ⊢
        omega
  · rw [bsonReaderHandleFillBuffer, if_neg fun h => hfirst h.2, heq]
    cases piece with
    | nil =>
      have hrest : r.handle.rest = [] := hnil rfl
      have hcon : con'.rest = [] := by simpa [hrest] using hpiece
      have hahead : r.ahead = bs := by simpa [hrest] using hstream
      refine ⟨_, rfl, ?_, Nat.zero_le _, Nat.le_of_lt hlt, rfl, rfl, .inl ⟨rfl, hcon, hahead⟩⟩
      simpa [BsonReader.ahead, hcon] using hahead
    | cons b piece =>
      have hlen : (r.handle.rest).length = (b :: piece).length + con'.rest.length := by
        rw [← hpiece, List.length_append]
      refine ⟨_, rfl, ?_, Nat.zero_le _, ?_, hsound, rfl, .inr ⟨hdone, ?_⟩⟩
      · rw [← hstream, ← hpiece]
        simp [BsonReader.ahead]
      · simp only [List.length_append]
        omega
      · simp only [List.length_cons] at hlen ⊢
        omega

theorem fillBuffer_refused (hread : Delivers read ok) (hdone : r.done = false)
    (hok : ¬ ok (r.len - r.ahead.length)) (hlt : r.len - r.ahead.length < 2 ^ 32) :
    ∃ e, bsonReaderHandleFillBuffer read r = .error e := by
  obtain ⟨e, heq⟩ := hread.refuse r.handle (r.len - r.ahead.length) hok hlt
  by_cases hfirst : r.offset = 0 ∧ r.data = []
  · have hahead : r.ahead = [] := by simp [BsonReader.ahead, hfirst.2]
    rw [hahead, List.length_nil, Nat.sub_zero] at heq
    exact ⟨e, by rw [bsonReaderHandleFillBuffer, if_pos ⟨hdone, hfirst⟩, heq]⟩
  · exact ⟨e, by rw [bsonReaderHandleFillBuffer, if_neg fun h => hfirst h.2, heq]⟩

/-- A buffer of `len` bytes with `n` of them in use can be refilled, or that raises. -/
def Refills (ok : ℕ → Prop) (raises : Prop) (bs : List UInt8) (len n : ℕ) : Prop :=
  (ok (len - n) ∧ n < len ∧ (∃ k, len = 2 ^ (k + 10)) ∧ Roomy ok raises bs len) ∨
    (raises ∧ ¬ ok (len - n) ∧ len - n < 2 ^ 32)

theorem refills_of_short (hpow : ∃ k, len = 2 ^ (k + 10)) (hroom : Roomy ok raises bs len)
    (hn : n < 4) : Refills ok raises bs len n := by
  have hlen : 1024 ≤ len := by
    obtain ⟨k, rfl⟩ := hpow
    exact Nat.pow_le_pow_right Nat.two_pos (Nat.le_add_left 10 k)
  rcases hroom with ⟨hbs, hle, hok⟩ | ⟨hbs, hok⟩ | ⟨hraises, hle, hok⟩
  · exact .inl ⟨hok _ (by omega), by omega, hpow, .inl ⟨hbs, hle, hok⟩⟩
  · exact .inl ⟨hok _, by omega, hpow, .inr (.inl ⟨hbs, hok⟩)⟩
  · by_cases hfull : len - n < 2 ^ 31
    · exact .inl ⟨(hok _).mpr hfull, by omega, hpow, .inr (.inr ⟨hraises, hle, hok⟩)⟩
    · exact .inr ⟨hraises, fun h => hfull ((hok _).mp h), by omega⟩

theorem toInt32_len (hpow : ∃ k, len = 2 ^ (k + 10)) :
    (toInt32 len = len ∧ len ≤ 2 ^ 30) ∨ (toInt32 len ≤ 0 ∧ 2 ^ 31 ≤ len) := by
  obtain ⟨k, rfl⟩ := hpow
  by_cases hk : k + 10 ≤ 30
  · have hle : 2 ^ (k + 10) ≤ 2 ^ 30 := Nat.pow_le_pow_right (by decide) hk
    exact .inl ⟨toInt32_of_lt (by omega), hle⟩
  · exact .inr ⟨toInt32_two_pow_nonpos (by omega), Nat.pow_le_pow_right (by decide) (by omega)⟩

theorem double_len_le (hpow : ∃ k, len = 2 ^ (k + 10)) (hlt : len < 2 ^ 30) :
    len * 2 ≤ 2 ^ 30 := by
  obtain ⟨k, rfl⟩ := hpow
  have hk : k + 10 < 30 := (Nat.pow_lt_pow_iff_right (by decide)).mp hlt
  rw [← Nat.pow_succ]
  exact Nat.pow_le_pow_right (by decide) hk

def grownLen (len : ℕ) (blen : ℤ) : ℕ := if toInt32 len < blen then len * 2 else len

theorem grownLen_pow (hpow : ∃ k, len = 2 ^ (k + 10)) (blen : ℤ) :
    ∃ k, grownLen len blen = 2 ^ (k + 10) := by
  obtain ⟨k, rfl⟩ := hpow
  unfold grownLen
  split
  · exact ⟨k + 1, by rw [← Nat.pow_succ, Nat.add_right_comm]⟩
  · exact ⟨k, rfl⟩

theorem grow_eq (r : BsonReader) (blen : ℤ) :
    (if toInt32 r.len < blen then bsonReaderHandleGrowBuffer r else r) =
      { r with len := grownLen r.len blen } := by
  unfold grownLen
  split <;> rfl

/-- Too few bytes are left for the document, whose length is compared as the source does. -/
theorem refills_of_long (hpow : ∃ k, len = 2 ^ (k + 10)) (hroom : Roomy ok raises bs len)
    (hlen : n ≤ len) (hbs : n ≤ bs.length) (hfour : 4 ≤ n) (hfive : 5 ≤ readI32le bs)
    (hfew : toInt32 n < readI32le bs) :
    Refills ok raises bs (grownLen len (readI32le bs)) n ∧
      (ok (grownLen len (readI32le bs) - n) → (n : ℤ) < readI32le bs) := by
  have hgrown := grownLen_pow hpow (readI32le bs)
  rcases hroom with ⟨hmod, hle, hok⟩ | ⟨hshort, hok⟩ | ⟨hraises, hle, hok⟩
  · have hmax := hmod.readI32le_le
    rw [toInt32_of_lt (by omega)] at hfew
    have hnew : n < grownLen len (readI32le bs) ∧ grownLen len (readI32le bs) ≤ 2 ^ 30 := by
      unfold grownLen
      rw [toInt32_of_lt (by omega)]
      split
      · exact ⟨by omega, double_len_le hpow (by omega)⟩
      · exact ⟨by omega, hle⟩
    exact ⟨.inl ⟨hok _ (by omega), hnew.1, hgrown, .inl ⟨hmod, hnew.2, hok⟩⟩, fun _ => hfew⟩
  · rw [toInt32_of_lt (by omega)] at hfew
    have hnew : n < grownLen len (readI32le bs) := by
      unfold grownLen
      split
      · omega
      · rcases toInt32_len hpow with ⟨heq, -⟩ | ⟨hneg, -⟩ <;> omega
    exact ⟨.inl ⟨hok _, hnew, hgrown, .inr (.inl ⟨hshort, hok⟩)⟩, fun _ => hfew⟩
  · by_cases hfull : len < 2 ^ 31
    · rw [toInt32_of_lt (by omega)] at hfew
      rcases toInt32_len hpow with ⟨heq, hle'⟩ | ⟨-, hge⟩
      · have hnew : n < grownLen len (readI32le bs) ∧ grownLen len (readI32le bs) ≤ 2 ^ 31 := by
          unfold grownLen
          rw [heq]
          split <;> constructor <;> omega
        exact ⟨.inl ⟨(hok _).mpr (by omega), hnew.1, hgrown,
          .inr (.inr ⟨hraises, hnew.2, hok⟩)⟩, fun _ => hfew⟩
      · omega
    · -- a buffer of 2 GiB is doubled, and the count for the rest of it is no `int`
      have hnew : grownLen len (readI32le bs) = 2 ^ 32 := by
        have hneg : toInt32 len < 0 := toInt32_neg (by omega) (by omega)
        unfold grownLen
        rw [if_pos (by omega)]
        omega
      have hbad : ¬ ok (grownLen len (readI32le bs) - n) := by
        rw [hok, hnew]
        omega
      exact ⟨.inr ⟨hraises, hbad, by omega⟩, fun h => absurd h hbad⟩

def answer : Front Bson → Option Bson × Bool
  | .frame d => (some d, false)
  | .bad => (none, false)
  -- a document that is cut off is reported as the end of the stream
  | .clean | .cut => (none, true)

def leftover (bs : List UInt8) : List UInt8 :=
  match bsonFront bs with
  | .frame d => bs.drop d.bytes.length
  | _ => bs

/-- A read came back, with the answer by the front of the stream unless the handle raised. -/
def Answers (ok : ℕ → Prop) (raises : Prop) (bs : List UInt8)
    (out : Option (Except String ReadResult)) : Prop :=
  (raises ∧ ∃ e, out = some (.error e)) ∨
    ∃ r', out = some (.ok ⟨(answer (bsonFront bs)).1, (answer (bsonFront bs)).2, r'⟩) ∧
      Reading ok raises r' (leftover bs)

theorem Roomy.drop (h : Roomy ok raises bs len) (hd : bsonFront bs = .frame d) :
    Roomy ok raises (bs.drop d.bytes.length) len := by
  rcases h with ⟨hmod, h⟩ | ⟨hshort, h⟩ | h
  · exact .inl ⟨hmod.drop hd, h⟩
  · exact .inr (.inl ⟨by rw [List.length_drop]; omega, h⟩)
  · exact .inr (.inr h)

theorem Reading.length_ahead_le (h : Reading ok raises r bs) : r.ahead.length ≤ bs.length := by
  rw [← h.stream, List.length_append]
  omega

theorem answers_of_stop (h : Reading ok raises r bs) (hstop : ∀ d, bsonFront bs ≠ .frame d) :
    Answers ok raises bs
      (some (.ok ⟨(answer (bsonFront bs)).1, (answer (bsonFront bs)).2, r⟩)) := by
  refine .inr ⟨r, rfl, ?_⟩
  unfold leftover
  split
  · rename_i d hd
    exact absurd hd (hstop d)
  · exact h

theorem answers_of_refill {fuel : ℕ} (hread : Delivers read ok)
    (ih : ∀ r', Reading ok raises r' bs →
      (r'.done = true ∧ 0 < fuel) ∨ r'.handle.rest.length + 2 ≤ fuel →
      Answers ok raises bs (readLoop read fuel r'))
    (hstream : r.ahead ++ r.handle.rest = bs) (hdone : r.done = false) (hsound : r.failed = false)
    (hrefill : Refills ok raises bs r.len r.ahead.length)
    (hend : ok (r.len - r.ahead.length) → r.ahead = bs →
      bsonFront bs = .clean ∨ bsonFront bs = .cut)
    (hfuel : r.handle.rest.length + 2 ≤ fuel + 1) :
    Answers ok raises bs
      (andThen (some (bsonReaderHandleFillBuffer read r)) (readLoop read fuel)) := by
  rcases hrefill with ⟨hok, hlt, hpow, hroom⟩ | ⟨hraises, hok, hlt⟩
  · obtain ⟨r', heq, hfill⟩ := fillBuffer_spec hread hstream hdone hsound hlt hok
    rw [heq, andThen_ok]
    have hlen := hfill.len_eq
    have hr' : Reading ok raises r' bs := {
      stream := hfill.stream
      offset_le := hfill.offset_le
      data_le := hfill.data_le
      sound := hfill.sound
      pow := by rwa [hlen]
      roomy := by rwa [hlen]
      ended := by
        intro hdone'
        rcases hfill.progress with ⟨-, -, hahead⟩ | ⟨hgo, -⟩
        · exact hend hok hahead
        · simp [hgo] at hdone' }
    refine ih r' hr' ?_
    rcases hfill.progress with ⟨hstop, -, -⟩ | ⟨-, hless⟩
    · exact .inl ⟨hstop, by omega⟩
    · exact .inr (by omega)
  · obtain ⟨e, heq⟩ := fillBuffer_refused hread hdone hok hlt
    rw [heq]
    exact .inl ⟨hraises, e, rfl⟩

theorem bsonFront_of_short (h : bs.length < 4) : bsonFront bs = .clean ∨ bsonFront bs = .cut := by
  by_cases hnil : bs = []
  · exact .inl ((bsonFraming.front_eq_clean bs).mpr hnil)
  · exact .inr (by rw [bsonFront, if_neg hnil, if_pos h])

theorem bsonFront_of_long (bs : List UInt8) (h : 4 ≤ bs.length) : bsonFront bs =
    if readI32le bs < 5 then .bad
    else if (bs.length : ℤ) < readI32le bs then .cut
    else (bsonInitStatic (bs.take (readI32le bs).toNat)).elim .bad .frame := by
  have hnil : bs ≠ [] := by
    rintro rfl
    simp at h
  rw [bsonFront, if_neg hnil, if_neg (by omega)]

theorem lt_of_enough (hroom : Roomy ok raises bs len) (hlen : n ≤ len) (hbs : n ≤ bs.length)
    (henough : 0 ≤ toInt32 n) : n < 2 ^ 31 := by
  rcases hroom with ⟨-, hle, -⟩ | ⟨hshort, -⟩ | ⟨-, hle, -⟩
  · omega
  · omega
  · by_contra hge
    have := toInt32_neg (n := n) (by omega) (by omega)
    omega

theorem answers_of_enough (h : Reading ok raises r bs) (hfive : 5 ≤ readI32le bs)
    (hle : readI32le bs ≤ r.ahead.length) :
    Answers ok raises bs (some (.ok (bsonReaderHandleTake r (readI32le bs).toNat))) := by
  obtain ⟨n, hn⟩ : ∃ n : ℕ, readI32le bs = n := ⟨(readI32le bs).toNat, by omega⟩
  have hstream := h.stream
  have hahead := h.length_ahead_le
  rw [hn] at hfive hle ⊢
  rw [Int.toNat_natCast, bsonReaderHandleTake]
  have htake : bs.take n = r.ahead.take n := by
    rw [← hstream]
    exact List.take_append_of_le_length (by omega)
  have hfront := bsonFront_of_long bs (by omega)
  rw [hn, if_neg (by omega), if_neg (by omega), Int.toNat_natCast, htake] at hfront
  cases hinit : bsonInitStatic (r.ahead.take n) with
  | none =>
    rw [hinit] at hfront
    have hstop := answers_of_stop h fun d hd => by simp [hd] at hfront
    rwa [hfront] at hstop
  | some d =>
    rw [hinit] at hfront
    have hlen : d.bytes.length = n := by
      rw [bytes_of_bsonInitStatic hinit, List.length_take]
      omega
    have hdata := h.offset_le
    have hsplit : r.ahead.length = r.data.length - r.offset := List.length_drop
    have hdrop : r.data.drop (r.offset + n) = r.ahead.drop n := by
      rw [BsonReader.ahead, List.drop_drop]
    refine .inr ⟨{ r with offset := r.offset + n }, by rw [hfront]; rfl, ?_⟩
    have hleft : leftover bs = bs.drop n := by
      rw [leftover, hfront, ← hlen]
      rfl
    rw [hleft]
    exact {
      stream := by
        rw [BsonReader.ahead, hdrop, ← hstream, List.drop_append_of_le_length (by omega)]
      offset_le := by
        show r.offset + n ≤ r.data.length
        omega
      data_le := h.data_le
      sound := h.sound
      pow := h.pow
      roomy := hlen ▸ h.roomy.drop hfront
      ended := fun hdone => by
        rcases h.ended hdone with hend | hend <;> simp [hend] at hfront }

/-- The loop answers by the front of the stream, however the bytes arrive. -/
theorem readLoop_answers {fuel : ℕ} (hread : Delivers read ok) (h : Reading ok raises r bs)
    (hfuel : (r.done = true ∧ 0 < fuel) ∨ r.handle.rest.length + 2 ≤ fuel) :
    Answers ok raises bs (readLoop read fuel r) := by
  induction fuel generalizing r with
  | zero =>
    rcases hfuel with ⟨-, hpos⟩ | hle
    · exact absurd hpos (Nat.lt_irrefl 0)
    · exact absurd hle (Nat.not_succ_le_zero _)
  | succ fuel ih =>
    have hstream := h.stream
    rw [readLoop]
    cases hdone : r.done with
    | true =>
      have hend := h.ended hdone
      have heof : answer (bsonFront bs) = (none, !r.failed) := by
        rw [h.sound]
        rcases hend with hend | hend <;> rw [hend] <;> rfl
      have hstop := answers_of_stop h fun d hd => by simp [hd] at hend
      rw [heof] at hstop
      rw [if_pos rfl]
      exact hstop
    | false =>
      have hfuel' : r.handle.rest.length + 2 ≤ fuel + 1 := by
        rcases hfuel with ⟨ht, -⟩ | hle
        · simp [hdone] at ht
        · exact hle
      have hbs := h.length_ahead_le
      have hlen : r.ahead.length ≤ r.len := by
        have := h.data_le
        rw [BsonReader.ahead, List.length_drop]
        omega
      rw [if_neg Bool.false_ne_true]
      by_cases hshort : r.ahead.length < 4
      · rw [if_pos hshort]
        refine answers_of_refill hread (fun r' hr' hf => ih hr' hf) hstream hdone h.sound
          (refills_of_short h.pow h.roomy hshort) (fun _ hahead => ?_) hfuel'
        exact bsonFront_of_short (hahead ▸ hshort)
      · have hi32 : readI32le r.ahead = readI32le bs := by
          rw [← hstream, readI32le_append (by omega)]
        rw [if_neg hshort, hi32]
        dsimp only
        rw [grow_eq]
        by_cases hfive : readI32le bs < 5
        · -- no document can start so
          have hfront : bsonFront bs = .bad := by
            rw [bsonFront_of_long bs (by omega), if_pos hfive]
          have hstop := answers_of_stop h fun d hd => by simp [hd] at hfront
          rw [hfront] at hstop
          rw [if_pos hfive]
          exact hstop
        rw [if_neg hfive]
        by_cases hfew : toInt32 r.ahead.length < readI32le bs
        · -- the document does not fit into the bytes read ahead
          rw [if_pos hfew]
          obtain ⟨hrefill, hlonger⟩ :=
            refills_of_long h.pow h.roomy hlen hbs (by omega) (by omega) hfew
          refine answers_of_refill hread (fun r' hr' hf => ih hr' hf) hstream hdone h.sound hrefill
            (fun hok heq => .inr ?_) hfuel'
          have hcut : (bs.length : ℤ) < readI32le bs := by
            have hlt := hlonger hok
            rwa [show r.ahead = bs from heq] at hlt
          rw [bsonFront_of_long bs (by omega), if_neg hfive, if_pos hcut]
        · rw [if_neg hfew]
          have hexact := lt_of_enough h.roomy hlen hbs (by omega)
          rw [toInt32_of_lt hexact] at hfew
          exact answers_of_enough h (by omega) (by omega)

theorem bsonReaderRead_answers (hread : Delivers read ok) (h : Reading ok raises r bs) :
    Answers ok raises bs (bsonReaderRead read r) :=
  readLoop_answers hread h (.inr (Nat.le_refl _))

theorem reading_of_new (hread : Delivers read ok) (hroom : Roomy ok raises con.rest 1024) :
    ∃ r, bsonReaderNewFromHandle read con = .ok r ∧ Reading ok raises r con.rest := by
  have hok : ok 1024 := by
    rcases hroom with ⟨-, -, hok⟩ | ⟨-, hok⟩ | ⟨-, -, hok⟩
    · exact hok _ (by decide)
    · exact hok _
    · exact (hok _).mpr (by decide)
  have hstream : (⟨con, [], 0, 1024, false, false⟩ : BsonReader).ahead ++ con.rest = con.rest := rfl
  obtain ⟨r, heq, hfill⟩ := fillBuffer_spec hread hstream rfl rfl (show 0 < 1024 by decide) hok
  have hlen : r.len = 1024 := hfill.len_eq
  refine ⟨r, heq, hfill.stream, hfill.offset_le, hfill.data_le, hfill.sound, ⟨0, hlen⟩,
    by rwa [hlen], fun hdone => ?_⟩
  rcases hfill.progress with ⟨-, -, hahead⟩ | ⟨hgo, -⟩
  · exact bsonFront_of_short (by rw [← hahead]; exact Nat.zero_lt_succ 3)
  · simp [hgo] at hdone

def Holds (ok : ℕ → Prop) (raises : Prop) (r : BsonReader) (ds : List Bson) (t : List UInt8) :
    Prop :=
  ∃ bs, Reading ok raises r bs ∧ bsonFraming.frames bs = ds ∧ bsonFraming.rest bs = t

def reportsEnd (t : List UInt8) : Bool := (answer (bsonFront t)).2

theorem read_document {ds : List Bson} {t : List UInt8} (hread : Delivers read ok)
    (h : Holds ok raises r (d :: ds) t) :
    (raises ∧ ∃ e, bsonReaderRead read r = some (.error e)) ∨
      ∃ r', bsonReaderRead read r = some (.ok ⟨some d, false, r'⟩) ∧ Holds ok raises r' ds t := by
  obtain ⟨bs, hr, hds, ht⟩ := h
  obtain ⟨d', hfront⟩ : ∃ d', bsonFront bs = .frame d' := by
    by_contra hstop
    have := bsonFraming.frames_of_stop fun d' hd' => hstop ⟨d', hd'⟩
    simp [this] at hds
  rw [bsonFraming.frames_of_frame hfront] at hds
  rw [bsonFraming.rest_of_frame hfront] at ht
  obtain ⟨rfl, hds'⟩ := List.cons.inj hds
  rcases bsonReaderRead_answers hread hr with herror | ⟨r', heq, hr'⟩
  · exact .inl herror
  · rw [hfront] at heq
    rw [leftover, hfront] at hr'
    exact .inr ⟨r', heq, _, hr', hds', ht⟩

theorem read_rest {t : List UInt8} (hread : Delivers read ok) (h : Holds ok raises r [] t) :
    (raises ∧ ∃ e, bsonReaderRead read r = some (.error e)) ∨
      ∃ r', bsonReaderRead read r = some (.ok ⟨none, reportsEnd t, r'⟩) ∧
        Holds ok raises r' [] t := by
  obtain ⟨bs, hr, hds, rfl⟩ := h
  have hstop : ∀ d, bsonFront bs ≠ .frame d := fun d hd => by
    simp [bsonFraming.frames_of_frame hd] at hds
  have hrest : bsonFraming.rest bs = bs := bsonFraming.rest_of_stop hstop
  rw [hrest]
  rcases bsonReaderRead_answers hread hr with herror | ⟨r', heq, hr'⟩
  · exact .inl herror
  · have hleft : leftover bs = bs := by
      unfold leftover
      split
      · rename_i d hd
        exact absurd hd (hstop d)
      · rfl
    have hnone : (answer (bsonFront bs)).1 = none := by
      cases hfront : bsonFront bs with
      | frame d => exact absurd hfront (hstop d)
      | clean => rfl
      | cut => rfl
      | bad => rfl
    rw [hnone] at heq
    rw [hleft] at hr'
    exact .inr ⟨r', heq, bs, hr', hds, hrest⟩

theorem holds_of_new (con : Connection) (hread : Delivers read ok)
    (hroom : Roomy ok raises con.rest 1024) :
    ∃ r, bsonReaderNewFromHandle read con = .ok r ∧
      Holds ok raises r (bsonFraming.frames con.rest) (bsonFraming.rest con.rest) := by
  obtain ⟨r, heq, hr⟩ := reading_of_new hread hroom
  exact ⟨r, heq, con.rest, hr, rfl, rfl⟩

end Mongolite
