import ColumnarStore.Encoding.Factory

/-! What the factory falls back on.

A pair of encoding and type without a codec gets the plain 32-bit one on both sides,
whatever the size of the type's values. It moves the first four bytes for each value, so
a type of eight bytes gets half its memory back (`fallback_restores_iff`). -/
namespace ColumnarStore.Encoding
open Foundation

/-- The numeric pairs for which the factory has no codec. -/
def FallsBack (enc : EncodingType) (dt : DataType) : Prop :=
  enc = .zstd ∨ enc = .lz4 ∨
    (enc = .delta ∨ enc = .frameOfReference ∨ enc = .bitPack) ∧ (dt = .float ∨ dt = .double)

instance (enc : EncodingType) (dt : DataType) : Decidable (FallsBack enc dt) :=
  inferInstanceAs (Decidable (_ ∨ _ ∨ _ ∧ _))

theorem create_of_fallsBack {enc : EncodingType} {dt : DataType} (h : FallsBack enc dt) :
    createEncoder enc dt = plainInt32Encoder ∧ createDecoder enc dt = plainInt32Decoder := by
  rcases h with rfl | rfl | ⟨rfl | rfl | rfl, rfl | rfl⟩ <;> exact ⟨rfl, rfl⟩

/-! ### The plain codec on any memory -/

/-- The encoder appends the bytes of as many values. -/
theorem plainEncoder_eq (t : DataType) {data : List UInt8} {count : Nat} (h : t.typeSize * count ≤ data.length) :
    Encoder.of t (Plain.encode t) data count = .ok (data.take (t.typeSize * count)) := by
  obtain ⟨src, hsrc⟩ := exists_loadWords h
  rw [Encoder.of, hsrc, orFault_some, bind_ok, Plain.encode, storeWords_loadWords hsrc]

/-- The decoder overwrites the bytes of as many values, and no others. -/
theorem plainDecoder_eq (t : DataType) {data out : List UInt8} {count : Nat}
    (hdata : t.typeSize * count ≤ data.length) (hout : t.typeSize * count ≤ out.length) :
    Decoder.of t (Plain.decode t) data out count =
      .ok (data.take (t.typeSize * count) ++ out.drop (t.typeSize * count)) := by
  obtain ⟨src, hsrc⟩ := exists_loadWords hdata
  obtain ⟨dst, hdst⟩ := exists_loadWords hout
  rw [Decoder.of, hdst, orFault_some, bind_ok, Plain.decode, length_loadWords hdst, hsrc, orFault_some, bind_ok,
    storeWords_loadWords hsrc]
  rfl

/-! ### When the values come back -/

/-- The values are encoded, and decoding the bytes over whatever the destination holds
restores them bit for bit. -/
def FallbackRestores (enc : EncodingType) (dt : DataType) (values : List (Native dt)) : Prop :=
  ∃ bytes, createEncoder enc dt (storeWords dt.typeSize values) values.length = .ok bytes ∧
    ∀ dst : List (Native dt), dst.length = values.length →
      createDecoder enc dt bytes (storeWords dt.typeSize dst) values.length = .ok (storeWords dt.typeSize values)

/-- What comes back: four bytes for each value, and then what was there before. -/
theorem fallback_eq {enc : EncodingType} {dt : DataType} (h : FallsBack enc dt) (hsize : 4 ≤ dt.typeSize)
    (values : List (Native dt)) :
    ∃ bytes, createEncoder enc dt (storeWords dt.typeSize values) values.length = .ok bytes ∧
      ∀ dst : List (Native dt), dst.length = values.length →
        createDecoder enc dt bytes (storeWords dt.typeSize dst) values.length =
          .ok ((storeWords dt.typeSize values).take (4 * values.length) ++
            (storeWords dt.typeSize dst).drop (4 * values.length)) := by
  obtain ⟨hencoder, hdecoder⟩ := create_of_fallsBack h
  have hle : 4 * values.length ≤ (storeWords dt.typeSize values).length := by
    rw [length_storeWords]
    exact Nat.mul_le_mul_right _ hsize
  refine ⟨(storeWords dt.typeSize values).take (4 * values.length), ?_, fun dst hdst => ?_⟩
  · rw [hencoder]
    exact plainEncoder_eq .int32 hle
  · have htake : 4 * values.length ≤ ((storeWords dt.typeSize values).take (4 * values.length)).length := by
      rw [List.length_take, Nat.min_eq_left hle]
    have hout : 4 * values.length ≤ (storeWords dt.typeSize dst).length := by
      rw [length_storeWords, hdst, ← length_storeWords]
      exact hle
    have hdecode := plainDecoder_eq .int32 htake hout
    rw [show DataType.int32.typeSize = 4 from rfl, List.take_take, Nat.min_self] at hdecode
    rw [hdecoder]
    exact hdecode

/-- Behind the first half, eight-byte memories of zeros and of ones differ. -/
theorem drop_replicate_ne {dt : DataType} (hsize : dt.typeSize = 8) {n : Nat} (hn : 0 < n) :
    (storeWords dt.typeSize (List.replicate n 0)).drop (4 * n) ≠
      (storeWords dt.typeSize (List.replicate n (-1))).drop (4 * n) := by
  obtain ⟨m, rfl⟩ := Nat.exists_eq_succ_of_ne_zero hn.ne'
  have hlast : ∀ x : Native dt, ((storeWords dt.typeSize (List.replicate (m + 1) x)).drop (4 * (m + 1))).getLast? =
      (storeWord dt.typeSize x).getLast? := by
    intro x
    have hlong : ¬ (storeWords dt.typeSize (List.replicate (m + 1) x)).length ≤ 4 * (m + 1) := by
      rw [length_storeWords, List.length_replicate, hsize]
      omega
    have hne : storeWord dt.typeSize x ≠ [] := by
      rw [← List.length_pos_iff_ne_nil, length_storeWord]
      exact dt.typeSize_pos
    rw [List.getLast?_drop, if_neg hlong, List.replicate_succ', storeWords_append, storeWords_cons, storeWords_nil,
      List.append_nil, List.getLast?_append_of_ne_nil _ hne]
  intro heq
  have hbytes := congrArg List.getLast? heq
  rw [hlast, hlast] at hbytes
  revert hbytes
  cases dt <;> simp [DataType.typeSize] at hsize <;> decide

/-- **A fallback restores values exactly when they have four bytes, or there are none.** -/
theorem fallback_restores_iff (enc : EncodingType) (dt : DataType) (hdt : dt.isNumeric = true)
    (h : FallsBack enc dt) (values : List (Native dt)) :
    FallbackRestores enc dt values ↔ dt.typeSize = 4 ∨ values = [] := by
  have hsize := DataType.typeSize_of_isNumeric hdt
  obtain ⟨bytes, hencode, hdecode⟩ := fallback_eq h (by omega) values
  constructor
  · intro hrestores
    obtain ⟨bytes', hencode', hrestored⟩ := hrestores
    cases hencode.symm.trans hencode'
    by_contra hnot
    obtain ⟨hfour, hne⟩ := not_or.mp hnot
    have hsame := fun x : Native dt => (hdecode (List.replicate values.length x) List.length_replicate).symm.trans
      (hrestored (List.replicate values.length x) List.length_replicate)
    have hdrop := List.append_cancel_left (Except.ok.inj ((hsame 0).trans (hsame (-1)).symm))
    exact drop_replicate_ne (hsize.resolve_left hfour) (List.length_pos_iff_ne_nil.mpr hne) hdrop
  · intro hcase
    refine ⟨bytes, hencode, fun dst hdst => ?_⟩
    have hlen : (storeWords dt.typeSize values).length = 4 * values.length := by
      rw [length_storeWords]
      rcases hcase with hfour | rfl
      · exact congrArg (· * values.length) hfour
      · rfl
    rw [hdecode dst hdst, ← hlen, List.take_length, List.drop_eq_nil_of_le, List.append_nil]
    rw [length_storeWords, length_storeWords, hdst]

theorem zstd_int32_restores : FallbackRestores .zstd .int32 [5, -1] :=
  (fallback_restores_iff .zstd .int32 rfl (by decide) [5, -1]).mpr (.inl rfl)

/-- Of 2^32 the upper four bytes are lost. -/
theorem zstd_int64_not_restores : FallsBack .zstd .int64 ∧ ¬ FallbackRestores .zstd .int64 [4294967296] := by
  refine ⟨by decide, fun h => ?_⟩
  obtain ⟨bytes, hencode, hrestored⟩ := h
  have hzeros : createEncoder .zstd .int64 (storeWords 8 [4294967296]) 1 = .ok [0, 0, 0, 0] := by decide
  cases hencode.symm.trans hzeros
  exact absurd (hrestored [0] rfl) (by decide)

end ColumnarStore.Encoding
