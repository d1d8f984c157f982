import Hilti.Embedded.Model

/-!
# Appending to frozen bytes

`hlt_bytes_append` checks first whether the object is frozen, and the raw variants do where there
is something to append.  `hlt_bytes_append_object` and `hlt_bytes_append_mark` do not check.
-/

namespace Hilti.Embedded

set_option autoImplicit false

variable {ω : Type} {b : Bytes ω}

/-- The function comes to its check for frozen objects. -/
def Op.Checked : Op ω → Prop
  | .append _ => True
  | .appendRaw raw => raw ≠ []
  | .appendRawCopy raw => raw ≠ []
  | .appendObject _ => False
  | .appendMark => False

instance : (op : Op ω) → Decidable op.Checked
  | .append _ => isTrue trivial
  | .appendRaw raw => inferInstanceAs (Decidable (raw ≠ []))
  | .appendRawCopy raw => inferInstanceAs (Decidable (raw ≠ []))
  | .appendObject _ => isFalse not_false
  | .appendMark => isFalse not_false

theorem appendRawChunk_refused_iff (hb : isFrozen b) (raw : List UInt8) (c : Chunk ω) :
    appendRawChunk b raw c = some (b, some .valueError) ↔ raw ≠ [] := by
  unfold appendRawChunk
  by_cases hraw : raw = []
  · simp [hraw]
  · have hlen : raw.length ≠ 0 := fun h => hraw (List.eq_nil_of_length_eq_zero h)
    rw [if_neg hlen, if_pos hb]
    exact ⟨fun _ => hraw, fun _ => rfl⟩

theorem appendObject_excpt {obj : Option ω} {b' : Bytes ω} {e : Excpt}
    (h : appendObject b obj = some (b', some e)) : e = .nullReference := by
  cases obj with
  | none =>
    cases h
    rfl
  | some obj =>
    obtain ⟨b₁, -, h⟩ := Option.bind_eq_some_iff.mp h
    obtain ⟨b₂, -, h⟩ := Option.bind_eq_some_iff.mp h
    cases h

theorem appendMark_excpt {b' : Bytes ω} {e : Option Excpt} (h : appendMark b = some (b', e)) :
    e = none := by
  obtain ⟨b₁, -, h⟩ := Option.bind_eq_some_iff.mp h
  cases h
  rfl

end Hilti.Embedded
