import Mongolite.GridFS.Streams
import Mongolite.Requests.Documents

/-! # The shape of a request

Strings of the caller are spliced into the text of a request, which is only
validated as a whole. A name keeps its place iff it needs no escape, an id iff it
is one, and a JSON string iff it is a JSON value by itself, unless the whole text
is refused.
-/

namespace Mongolite

open Json

variable {δ : Type} {j : Jsonlite} {r : DocumentReader}

/-- `name_or_query`, with the query that `bson_or_json` makes. -/
def nameRequest (j : Jsonlite) (read : String → Except String δ) (x : String) :
    Except String (String ⊕ δ) :=
  match nameOrQuery j.validate x with
  | .error e => .error e
  | .ok (.name name) => .ok (.inl name)
  | .ok (.query json) => (bsonOrJson j read json).map .inr

/-- The text is no JSON, or no document can be made of it. -/
def Refused (j : Jsonlite) (read : String → Except String δ) (text : String) : Prop :=
  ∀ d, bsonOrJson j read text ≠ .ok d

theorem refused_of_levels {text : String} {v : Json} (hparse : parse text.toList = some v)
    (hlevels : stackMax ≤ v.levels) : Refused j r.bsonNewFromJson text := by
  intro d hd
  obtain ⟨w, hw, hlt⟩ := DocumentReader.exists_parse (read_of_bsonOrJson hd)
  cases Option.some.inj (hparse.symm.trans hw)
  exact absurd hlt (Nat.not_lt.mpr hlevels)

/-! ## Values in a list -/

theorem find_cases {read : String → Except String δ} {args : FindArgs} {sent : δ × δ}
    (h : mongoCollectionFind j read args = .ok sent) :
    bsonOrJson j read args.query = .ok sent.1 ∧
      bsonOrJson j read (findOpts j args) = .ok sent.2 := by
  unfold mongoCollectionFind at h
  cases hquery : bsonOrJson j read args.query with
  | error e => simp [hquery] at h
  | ok filter =>
    cases hopts : bsonOrJson j read (findOpts j args) with
    | error e => simp [hquery, hopts, Except.map] at h
    | ok opts =>
      simp only [hquery, hopts, Except.map, Except.ok.injEq] at h
      subst h
      exact ⟨rfl, rfl⟩

theorem exists_ok {α : Type} {x : Except String α} (h : x.isOk = true) : ∃ a, x = .ok a := by
  cases x with
  | error e => cases h
  | ok a => exact ⟨a, rfl⟩

end Mongolite
