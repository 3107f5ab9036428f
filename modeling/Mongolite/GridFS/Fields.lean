import Mongolite.Bson.Convert
import Mongolite.Library.Simplify

/-! # Fields of a file

`create_outlist` makes six vectors of a file. All but the id have one element;
the id is whatever the converter makes. `unlist` coerces vectors to the highest
of their types and drops attributes: the class of a time, and the type of a
binary value.
-/

namespace Mongolite

inductive RKind where
  | null
  | raw
  | logical
  | integer
  | double
  | character
  | list
  deriving DecidableEq, Repr

def RKind.rank : RKind → ℕ
  | null => 0
  | raw => 1
  | logical => 2
  | integer => 3
  | double => 4
  | character => 5
  | list => 6

theorem RKind.rank_injective : Function.Injective RKind.rank := by
  intro k k' h
  cases k <;> cases k' <;> first | rfl | cases h

instance : LinearOrder RKind := LinearOrder.lift' RKind.rank RKind.rank_injective

theorem RKind.le_list (k : RKind) : k ≤ .list := by
  change k.rank ≤ 6
  cases k <;> decide

theorem RKind.eq_null_of_lt_raw {k : RKind} (hle : k ≤ .raw) (hne : k ≠ .raw) : k = .null := by
  have hrank : k.rank ≤ 1 := hle
  cases k with
  | null => rfl
  | raw => exact absurd rfl hne
  | _ => exact absurd hrank (by decide)

/-- A field: a converted value, a string or `NA`, or what becomes of such values in `unlist`: a
byte without a type, seconds without a class, and the text of a number. -/
inductive FileField where
  | value (v : RValue)
  | string (s : Option (List UInt8))
  | json (s : Option String)
  | byte (b : UInt8)
  | seconds (ms : ℤ)
  | asCharacter (f : FileField)

def RValue.kind : RValue → RKind
  | null => .null
  | logical _ => .logical
  | integer _ => .integer
  | double _ | doubleOfInt _ | doubleOfDecimal128 _ | posixct _ => .double
  | timeText _ | text _ | utf8Text _ => .character
  | raw _ _ => .raw
  | list _ | namedList _ => .list

namespace FileField

def kind : FileField → RKind
  | value v => v.kind
  | string _ | json _ | asCharacter _ => .character
  | byte _ => .raw
  | seconds _ => .double

def elems : FileField → List FileField
  | value .null => []
  | value (.raw bytes _) => bytes.map byte
  | value (.posixct ms) => [seconds ms]
  | value (.list values) => values.map value
  | value (.namedList entries) => entries.map fun entry => value entry.2
  | f => [f]

def toInt : FileField → ℤ
  | byte b => b.toNat
  | value (.logical b) => if b then 1 else 0
  | value (.integer i) => i
  | _ => 0

def coerce (k : RKind) (f : FileField) : FileField :=
  if f.kind = k then f
  else
    match k with
    | .logical => value (.logical (f.toInt ≠ 0))
    | .integer => value (.integer f.toInt)
    | .double => value (.doubleOfInt f.toInt)
    | .character => asCharacter f
    | .null | .raw | .list => f

theorem kind_elem (f : FileField) (h : f.kind ≠ .list) : ∀ e ∈ f.elems, e.kind = f.kind := by
  intro e he
  cases f with
  | value v =>
    cases v with
    | null => cases he
    | raw bytes type =>
      obtain ⟨b, -, rfl⟩ := List.mem_map.mp he
      rfl
    | list values => exact absurd rfl h
    | namedList entries => exact absurd rfl h
    | _ => cases List.mem_singleton.mp he; rfl
  | _ => cases List.mem_singleton.mp he; rfl

theorem elems_null (f : FileField) (h : f.kind = .null) : f.elems = [] := by
  cases f with
  | value v => cases v <;> first | rfl | cases h
  | _ => cases h

theorem kind_coerce (k : RKind) (f : FileField) (hk : k ≠ .list) (hle : f.kind ≤ k) :
    ∀ e ∈ f.elems, (e.coerce k).kind = k := by
  intro e he
  have hf : f.kind ≠ .list := (hle.trans_lt (lt_of_le_of_ne k.le_list hk)).ne
  have hkind := f.kind_elem hf e he
  unfold coerce
  split_ifs with hself
  · exact hself
  · -- what is below raw vectors has no elements
    have hraw : ¬ k ≤ .raw := by
      intro hraw
      have hnull : f.kind = .null := by
        refine RKind.eq_null_of_lt_raw (hle.trans hraw) fun hfraw => hself ?_
        rw [hkind, hfraw]
        exact le_antisymm (hfraw ▸ hle) hraw
      rw [f.elems_null hnull] at he
      cases he
    cases k with
    | null => exact absurd (by decide) hraw
    | raw => exact absurd le_rfl hraw
    | list => exact absurd rfl hk
    | _ => rfl

theorem elems_list (f : FileField) (h : f.kind = .list) : f.elems ≠ [f] := by
  intro heq
  cases f with
  | value v =>
    cases v with
    | list values =>
      obtain ⟨x, hx, hself⟩ := List.map_eq_singleton_iff.mp heq
      have hsize := congrArg sizeOf (FileField.value.inj hself)
      simp [hx] at hsize
      omega
    | namedList entries =>
      obtain ⟨x, hx, hself⟩ := List.map_eq_singleton_iff.mp heq
      have hsize := congrArg sizeOf (FileField.value.inj hself)
      rw [hx] at hsize
      cases x
      simp at hsize
      omega
    | _ => cases h
  | _ => cases h

end FileField

def rVectors : Vectors FileField RKind where
  kind := FileField.kind
  elems := FileField.elems
  coerce := FileField.coerce
  listKind := .list
  kind_le := fun f => f.kind.le_list
  kind_elem := FileField.kind_elem
  kind_coerce := FileField.kind_coerce
  coerce_self := fun _ => if_pos rfl
  elems_list := FileField.elems_list

end Mongolite
