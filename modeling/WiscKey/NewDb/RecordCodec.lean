import WiscKey.NewDb.Model

namespace WiscKey.NewDb.RecordCodec

open WiscKey.NewDb.Model

/-- The record that `Put` builds. There is none when its size is not an `int`. -/
def record (k : Key) (v : Value) : Option (List UInt8) :=
  if Fits k v then some (encode k v) else none

def unskipped (k : Key) : List UInt8 := k.drop (k.length % 256)

def cString (l : List UInt8) : List UInt8 := l.takeWhile (fun b => b ≠ 0)

variable {k : Key} {v : Value}

theorem decode_encode_eq (k : Key) (v : Value) :
    decode (encode k v) = cString (unskipped k ++ v) := by
  have hl : (UInt8.ofNat k.length).toNat = k.length % 256 := UInt8.toNat_ofNat
  rw [encode, decode, hl, List.drop_append_of_le_length (Nat.mod_le _ _)]
  rfl

theorem cString_eq_self {l : List UInt8} : cString l = l ↔ ∀ b ∈ l, b ≠ 0 := by
  rw [cString, List.takeWhile_eq_self_iff]
  simp

theorem zero_not_mem_cString (l : List UInt8) : 0 ∉ cString l := by
  intro h
  have hne := List.mem_takeWhile_imp h
  simp at hne

theorem cString_append {l r : List UInt8} :
    cString (l ++ r) = if 0 ∈ l then cString l else l ++ cString r := by
  split
  · rename_i h
    rw [cString, List.takeWhile_append, if_neg]
    · rfl
    · intro hlen
      have he := (List.takeWhile_sublist _).eq_of_length hlen
      exact cString_eq_self.mp he 0 h rfl
  · rename_i h
    have he : cString l = l := cString_eq_self.mpr (fun b hb h0 => h (h0 ▸ hb))
    rw [cString] at he
    rw [cString, List.takeWhile_append, he, if_pos rfl]
    rfl

theorem unskipped_eq_nil : unskipped k = [] ↔ k.length < 256 := by
  rw [unskipped, List.drop_eq_nil_iff]
  omega

/-- A value comes back just when its key has a length that fits its byte and the
value has no zero byte. With a longer key only what stands before a zero in the
rest of the key can come back. -/
theorem decode_record_iff (k : Key) (v : Value) :
    (record k v).map decode = some v ↔ Fits k v ∧
      (k.length < 256 ∧ (∀ b ∈ v, b ≠ 0) ∨ 0 ∈ unskipped k ∧ cString (unskipped k) = v) := by
  rw [record]
  by_cases hf : Fits k v
  · rw [if_pos hf, Option.map_some, Option.some.injEq, decode_encode_eq, cString_append,
      and_iff_right hf]
    by_cases h0 : 0 ∈ unskipped k
    · have hk : ¬ k.length < 256 := by
        rw [← unskipped_eq_nil]
        exact List.ne_nil_of_mem h0
      simp [h0, hk]
    · rw [if_neg h0]
      simp only [h0, false_and, or_false, ← unskipped_eq_nil]
      constructor
      · intro he
        have hv : ∀ b ∈ v, b ≠ 0 := by
          rintro b hb rfl
          rw [← he] at hb
          obtain hb | hb := List.mem_append.mp hb
          · exact h0 hb
          · exact zero_not_mem_cString v hb
        refine ⟨?_, hv⟩
        rw [cString_eq_self.mpr hv] at he
        exact List.append_left_eq_self.mp he
      · rintro ⟨hn, hv⟩
        rw [hn, List.nil_append, cString_eq_self.mpr hv]
  · simp [hf]

theorem decode_record_three : (record [1, 2, 3] [7, 8]).map decode = some [7, 8] :=
  (decode_record_iff [1, 2, 3] [7, 8]).mpr ⟨by decide, Or.inl ⟨by decide, by simp⟩⟩

/-- A value ends at its first zero byte. -/
theorem zero_byte_lost : (record [1] [7, 0, 8]).map decode = some [7] ∧
    (record [1] [7, 0, 8]).map decode ≠ some [7, 0, 8] := by
  decide

end WiscKey.NewDb.RecordCodec
