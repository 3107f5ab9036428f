import Mongolite.Bson.JsonRendering
import Mongolite.Insert.Page

/-! # The renderer of the driver

`bson_as_relaxed_extended_json` is a renderer: it returns text that begins with a
brace and has no control characters, or `NULL`, and nothing is lost when R takes
its bytes for UTF-8.
-/

namespace Mongolite

/-- `bson_as_relaxed_extended_json`; `none` is `NULL`. A text is an object, and control characters
are escaped in it. -/
structure JsonRenderer where
  render : Bson → Option String
  braced : ∀ d t, render d = some t → startsWithBrace t = true
  escaped : ∀ d t, render d = some t → ∀ c ∈ t.toList, c ≠ '\n' ∧ c ≠ '\x00'

def JsonOutcome.string : JsonOutcome → Option String
  | .text s => (utf8Chars s).map String.ofList
  | .null | .truncated => none

theorem exists_of_string {b : Bson} {t : String}
    (h : (bsonAsRelaxedExtendedJson b).string = some t) :
    ∃ cs, t.toList = '\x7b' :: cs ∧ ∀ c ∈ cs, 32 ≤ c.toNat := by
  cases houtcome : bsonAsRelaxedExtendedJson b with
  | null | truncated =>
    rw [houtcome] at h
    cases h
  | text text =>
    obtain ⟨cs, hcs, hvisible⟩ := text_of_bytes houtcome
    rw [houtcome, JsonOutcome.string, hcs] at h
    obtain rfl := Option.some.inj h
    exact ⟨cs, String.toList_ofList, hvisible⟩

def relaxedRenderer : JsonRenderer where
  render d := (bsonAsRelaxedExtendedJson d).string
  braced d t h := by
    obtain ⟨cs, hcs, -⟩ := exists_of_string h
    rw [startsWithBrace, hcs]
    rfl
  escaped d t h c hc := by
    obtain ⟨cs, hcs, hvisible⟩ := exists_of_string h
    rw [hcs] at hc
    have hle : 32 ≤ c.toNat := by
      rcases List.mem_cons.mp hc with rfl | hc
      · decide
      · exact hvisible c hc
    constructor <;>
    · rintro rfl
      exact absurd hle (by decide)

/-- On every document of less than 128 MiB, well formed or not, the renderer is what the driver
does: text that begins with a brace and has no control characters, or `NULL`. -/
theorem relaxedRenderer_spec {d : Bson} (h : d.bytes.length < 2 ^ 27) :
    (∃ cs, (∀ c ∈ cs, 32 ≤ c.toNat) ∧
      bsonAsRelaxedExtendedJson d = .text (utf8Bytes ('\x7b' :: cs)) ∧
        relaxedRenderer.render d = some (String.ofList ('\x7b' :: cs))) ∨
      (bsonAsRelaxedExtendedJson d = .null ∧ relaxedRenderer.render d = none) := by
  have hrender : relaxedRenderer.render d = (bsonAsRelaxedExtendedJson d).string := rfl
  rw [hrender]
  cases houtcome : bsonAsRelaxedExtendedJson d with
  | text text =>
    obtain ⟨cs, hcs, hvisible⟩ := text_of_bytes houtcome
    refine .inl ⟨cs, hvisible, ?_, ?_⟩
    · rw [utf8Chars_eq_some_iff.mp hcs]
    · rw [JsonOutcome.string, hcs, Option.map_some]
  | null => exact .inr ⟨rfl, rfl⟩
  | truncated => exact absurd houtcome (not_truncated h)

/-- A well-formed document with a text that is no UTF-8 cannot be rendered. -/
theorem render_toBson (es : Elements) (hsize : (encodeLevel es.encode).length < 2 ^ 27)
    (hdepth : es.nesting ≤ bsonMaxRecursion) (hescapable : es.escapable = true)
    (hmembers : es.toMembers = none) :
    relaxedRenderer.render (es.toBson (hsize.trans (by decide))) = none := by
  have hshort := hsize.trans (show 2 ^ 27 < 2 ^ 31 by decide)
  have hshows := (shows_container bsonMaxRecursion es hdepth hescapable hshort).1
  rw [hmembers] at hshows
  have hvalid : (jsonAppendBsonContainer bsonMaxRecursion true (es.toBson hshort)).valid = false :=
    hshows
  have hnull : bsonAsRelaxedExtendedJson (es.toBson hshort) = .null := by
    rw [bsonAsRelaxedExtendedJson_eq (b := es.toBson hshort) hsize, hvalid]
    rfl
  show (bsonAsRelaxedExtendedJson (es.toBson hshort)).string = none
  rw [hnull, JsonOutcome.string]

/-- `{"a": "b"}` with a byte in the place of `b` that is no UTF-8. -/
def invalidTextDoc : Bson :=
  ⟨[0x0E, 0, 0, 0, 0x02, 0x61, 0, 2, 0, 0, 0, 0xFF, 0, 0], by constructor <;> decide⟩

theorem render_invalidTextDoc : relaxedRenderer.render invalidTextDoc = none :=
  render_toBson (.cons (.ofBytes [0x61]) (.utf8 [0xFF]) .nil) (by decide) (by decide) (by decide)
    rfl

theorem relaxedRenderer_invalidTextDoc :
    (∃ cs, (∀ c ∈ cs, 32 ≤ c.toNat) ∧
      bsonAsRelaxedExtendedJson invalidTextDoc = .text (utf8Bytes ('\x7b' :: cs)) ∧
        relaxedRenderer.render invalidTextDoc = some (String.ofList ('\x7b' :: cs))) ∨
      (bsonAsRelaxedExtendedJson invalidTextDoc = .null ∧
        relaxedRenderer.render invalidTextDoc = none) :=
  relaxedRenderer_spec (by decide)

end Mongolite
