import ColumnarStore.Standalone.Extraction

/-! Distances shifted in a width less than a word's.

The packing loop shifts a distance to its place in the type it is computed in. For
32-bit values that is half a word: a field that begins in the upper half is shifted too
far, and one that begins in the lower half loses what would reach into the upper. Only
the first word is ever written, and only its lower half. -/
namespace ColumnarStore.Standalone
open Foundation Foundation.Packing Encoding
variable {w bits : Nat}

/-! ### What is left of a distance -/

/-- The part of the `i`-th value that its shift leaves in `w` bits. -/
def kept (bits i : Nat) (v : BitVec w) : Nat := v.toNat % 2 ^ (w - i * bits)

theorem kept_le (i : Nat) (v : BitVec w) : kept bits i v ≤ v.toNat := Nat.mod_le _ _

/-- Nothing is lost of a value that ends below bit `w`. -/
theorem kept_eq_iff {i : Nat} {v : BitVec w} (h : i * bits < w) :
    kept bits i v = v.toNat ↔ v.toNat * 2 ^ (i * bits) < 2 ^ w := by
  have hpow : 2 ^ w = 2 ^ (w - i * bits) * 2 ^ (i * bits) := by
    rw [← pow_add, Nat.sub_add_cancel h.le]
  rw [kept, Nat.mod_eq_iff_lt (Nat.pow_pos (by decide)).ne', hpow, Nat.mul_lt_mul_right (Nat.pow_pos (by decide))]

/-- A value shifted in `w` bits is what is left of it, shifted in a word. -/
theorem setWidth_shiftLeft (hw : w ≤ 64) {i : Nat} (v : BitVec w) (h : i * bits < w) :
    (v <<< (i * bits)).setWidth 64 = BitVec.ofNat 64 (kept bits i v) <<< (i * bits) := by
  have hpow : 2 ^ w = 2 ^ (w - i * bits) * 2 ^ (i * bits) := by
    rw [← pow_add, Nat.sub_add_cancel h.le]
  have hle : 2 ^ w ≤ 2 ^ 64 := Nat.pow_le_pow_right (by decide) hw
  have hkept : kept bits i v < 2 ^ 64 := (kept_le i v).trans_lt (v.isLt.trans_le hle)
  apply BitVec.eq_of_toNat_eq
  have hshift : v.toNat * 2 ^ (i * bits) % 2 ^ w = kept bits i v * 2 ^ (i * bits) := by
    rw [hpow, Nat.mul_mod_mul_right]
    rfl
  have hlt := Nat.mod_lt (v.toNat * 2 ^ (i * bits)) (Nat.pow_pos (show 0 < 2 by decide) (n := w))
  rw [hshift] at hlt
  rw [BitVec.toNat_setWidth, BitVec.toNat_shiftLeft, BitVec.toNat_shiftLeft, Nat.shiftLeft_eq, Nat.shiftLeft_eq, hshift,
    toNat_ofNat_of_lt hkept]

/-! ### The loop -/

/-- A loop that returns has begun every field below bit `w`. -/
theorem begins_low (hw : w + bits ≤ 64) {bitPos : Nat} (hpos : bitPos < 64) {values : List (BitVec w)}
    {packed packed' : List (BitVec 64)} (h : pack bits bitPos values packed = .ok packed') :
    ∀ j < values.length, bitPos + j * bits < w := by
  induction values generalizing bitPos packed with
  | nil =>
    intro j hj
    cases hj
  | cons value rest ih =>
    obtain ⟨packed₁, hfirst, hrest⟩ := bind_eq_ok.mp h
    obtain ⟨low, hlow, -⟩ := bind_eq_ok.mp hfirst
    obtain ⟨hin, -⟩ := (checkedShiftLeft_eq_ok _).mp hlow
    rw [Nat.mod_eq_of_lt hpos] at hin
    intro j hj
    cases j with
    | zero => omega
    | succ j =>
      have := ih (by omega) hrest j (Nat.lt_of_succ_lt_succ hj)
      rw [Nat.succ_mul]
      omega

/-- One turn, in the first word. -/
theorem deposit_low (hw : w + bits ≤ 64) {i : Nat} (h : i * bits < w) (value : BitVec w)
    {packed : List (BitVec 64)} (hpacked : 0 < packed.length) :
    ∃ packed', deposit bits (i * bits) value packed = .ok packed' ∧
      Deposited (BitPacking.position bits i) (kept bits i value) packed packed' := by
  have hmod : i * bits % 64 = i * bits := Nat.mod_eq_of_lt (by omega)
  have hdiv : i * bits / 64 = 0 := Nat.div_eq_of_lt (by omega)
  have hpow : 2 ^ (w - i * bits) ≤ 2 ^ 64 := Nat.pow_le_pow_right (by decide) (by omega)
  have hkept : kept bits i value < 2 ^ (w - i * bits) := Nat.mod_lt _ (Nat.pow_pos (by decide))
  obtain ⟨packed', hor⟩ := orWord_some hpacked (BitVec.ofNat 64 (kept bits i value) <<< (i * bits))
  have hnat := toNat_ofNat_of_lt (hkept.trans_le hpow)
  have hdeposited := deposited_one (show i * bits + (w - i * bits) ≤ 64 by omega) (by rwa [hnat]) hor
  rw [Nat.zero_mul, Nat.zero_add, hnat] at hdeposited
  refine ⟨packed', ?_, hdeposited⟩
  rw [deposit, hmod, hdiv, checkedShiftLeft_ok _ _ h, bind_ok, setWidth_shiftLeft (by omega) value h, hor, orFault_some,
    bind_ok, if_pos (by omega), pure_eq_ok]

/-- A loop that begins every field below bit `w` packs what is left of the values. -/
theorem pack_low (hw : w + bits ≤ 64) (before rest : List (BitVec w)) {packed : List (BitVec 64)}
    (hlow : ∀ i < before.length + rest.length, i * bits < w) (hlen : rest ≠ [] → 0 < packed.length)
    (hpacked : Packed (BitPacking.position bits) (before.mapIdx (kept bits)) packed) :
    ∃ packed', pack bits (before.length * bits) rest packed = .ok packed' ∧
      Packed (BitPacking.position bits) ((before ++ rest).mapIdx (kept bits)) packed' := by
  induction rest generalizing before packed with
  | nil => exact ⟨packed, rfl, by rwa [List.append_nil]⟩
  | cons value rest ih =>
    obtain ⟨packed₁, hfirst, hdeposited⟩ := deposit_low hw (hlow before.length (by simp)) value
      (hlen (List.cons_ne_nil value rest))
    have hnow : Packed (BitPacking.position bits) ((before ++ [value]).mapIdx (kept bits)) packed₁ := by
      rw [List.mapIdx_append, List.mapIdx_singleton]
      refine hpacked.deposit ?_
      rwa [List.length_mapIdx, Nat.zero_add]
    obtain ⟨packed', hrest, hall⟩ := ih (before ++ [value])
      (fun i hi => hlow i (by
        rw [List.length_append, List.length_singleton] at hi
        rw [List.length_cons]
        omega))
      (fun _ => by rw [length_deposit hfirst]; exact hlen (List.cons_ne_nil value rest)) hnow
    rw [List.length_append, List.length_singleton, Nat.succ_mul] at hrest
    refine ⟨packed', ?_, by simpa using hall⟩
    rw [pack, hfirst, bind_ok, hrest]

/-! ### When the values come back -/

/-- Every field begins below bit `w` and every value ends there. -/
def EndsLow (bits : Nat) (values : List (BitVec w)) : Prop :=
  ∀ (i : Nat) (v : BitVec w), values[i]? = some v → i * bits < w ∧ v.toNat * 2 ^ (i * bits) < 2 ^ w

/-- Values are packed and come back exactly if they stay in the lower half of the first word. -/
theorem recovered_iff (h : 0 < bits) (hw : w + bits ≤ 64) {values : List (BitVec w)}
    (hfit : ∀ v ∈ values, v.toNat < 2 ^ bits) {fetchOf : List (BitVec 64) → Words}
    (hfetch : ∀ packed k x, packed[k]? = some x → fetchOf packed k = some x) {mask : BitVec 64}
    (hmask : IsMask bits mask) :
    (∃ packed, packAll bits values = .ok packed ∧ ∀ (i : Nat) (v : BitVec w), values[i]? = some v →
        ∃ e, extract (fetchOf packed) mask bits (i * bits) = .ok e ∧ e.setWidth w = v) ↔
      EndsLow bits values := by
  have hfitKept : ∀ v ∈ values.mapIdx (kept bits), v < 2 ^ bits := by
    intro v hv
    obtain ⟨i, hi, rfl⟩ := List.mem_mapIdx.mp hv
    exact (kept_le i values[i]).trans_lt (hfit _ (List.getElem_mem hi))
  have hpack : (∀ i < values.length, i * bits < w) → ∃ packed, packAll bits values = .ok packed ∧
      ∀ (i : Nat) (v : BitVec w), values[i]? = some v →
        extract (fetchOf packed) mask bits (i * bits) = .ok (BitVec.ofNat 64 (kept bits i v)) := by
    intro hlow
    have hroom : values ≠ [] → 0 < (List.replicate (packedWords bits values.length) (0 : BitVec 64)).length := by
      intro hne
      have := le_packedWords bits values.length
      have := Nat.mul_pos (List.length_pos_iff.mpr hne) h
      rw [List.length_replicate]
      omega
    obtain ⟨packed, hok, hpacked⟩ := pack_low hw [] values (fun i hi => hlow i (by simpa using hi)) hroom
      (packed_zeros _ _)
    rw [List.length_nil, Nat.zero_mul] at hok
    refine ⟨packed, hok, fun i v hv => ?_⟩
    refine extract_packed (hfetch packed) hmask h (by omega) hpacked hfitKept ?_ ?_
    · rw [List.nil_append, List.length_mapIdx, length_packAll hok]
      exact le_packedWords bits values.length
    · rw [List.nil_append, List.getElem?_mapIdx, hv]
      rfl
  have hback : ∀ (i : Nat) (v : BitVec w), (BitVec.ofNat 64 (kept bits i v)).setWidth w = v ↔
      kept bits i v = v.toNat := by
    intro i v
    have hlt : kept bits i v < 2 ^ w := (kept_le i v).trans_lt v.isLt
    have hle : 2 ^ w ≤ 2 ^ 64 := Nat.pow_le_pow_right (by decide) (by omega)
    rw [← BitVec.toNat_inj, BitVec.toNat_setWidth, toNat_ofNat_of_lt (hlt.trans_le hle), Nat.mod_eq_of_lt hlt]
  constructor
  · intro h'
    obtain ⟨packed, hok, hread⟩ := h'
    have hlow : ∀ i < values.length, i * bits < w := by
      intro i hi
      have := begins_low hw (show 0 < 64 by decide) hok i hi
      omega
    obtain ⟨packed', hok', hkept⟩ := hpack hlow
    cases hok.symm.trans hok'
    intro i v hv
    have hbegin := hlow i (List.getElem?_eq_some_iff.mp hv).1
    obtain ⟨e, hextract, he⟩ := hread i v hv
    cases hextract.symm.trans (hkept i v hv)
    exact ⟨hbegin, (kept_eq_iff hbegin).mp ((hback i v).mp he)⟩
  · intro hends
    obtain ⟨packed, hok, hkept⟩ := hpack fun i hi => (hends i _ (List.getElem?_eq_getElem hi)).1
    refine ⟨packed, hok, fun i v hv => ⟨_, hkept i v hv, ?_⟩⟩
    obtain ⟨hbegin, hend⟩ := hends i v hv
    exact (hback i v).mpr ((kept_eq_iff hbegin).mpr hend)

/-! ### 32-bit distances -/

/-- At the width of the greatest distance: every field begins in the lower half of the first
word, and the distance from the least value ends there. -/
def InLowerHalf (src : List (Native .int32)) : Prop :=
  ∀ lo ∈ src, (∀ z ∈ src, lo.toInt ≤ z.toInt) → ∀ (i : Nat) (x : Native .int32), src[i]? = some x →
    i * (Width.spread .int32 src).size < 32 ∧
      (x.toInt - lo.toInt) * 2 ^ (i * (Width.spread .int32 src).size) < 2 ^ 32

theorem endsLow_iff (x : Native .int32) (rest : List (Native .int32)) :
    EndsLow (Width.spread .int32 (x :: rest)).size
        ((x :: rest).map fun y => y - (Native.bounds .int32 x rest).1) ↔ InLowerHalf (x :: rest) := by
  obtain ⟨hlo, -, hall⟩ := Native.bounds_spec (t := .int32) rfl x rest
  have hvalue : ∀ (i : Nat) (y : Native .int32), y ∈ x :: rest →
      ((y - (Native.bounds .int32 x rest).1).toNat * 2 ^ (i * (Width.spread .int32 (x :: rest)).size) < 2 ^ 32 ↔
        (y.toInt - (Native.bounds .int32 x rest).1.toInt) *
          2 ^ (i * (Width.spread .int32 (x :: rest)).size) < 2 ^ 32) := by
    intro i y hy
    rw [← Width.toNat_sub (hall y hy).1]
    exact_mod_cast Iff.rfl
  constructor
  · intro h lo hmem hleast i y hy
    have hsame : lo = (Native.bounds .int32 x rest).1 :=
      BitVec.eq_of_toInt_eq (Int.le_antisymm (hleast _ hlo) (hall lo hmem).1)
    obtain ⟨hbegin, hend⟩ := h i (y - (Native.bounds .int32 x rest).1) (by rw [List.getElem?_map, hy]; rfl)
    rw [hsame]
    exact ⟨hbegin, (hvalue i y (List.mem_of_getElem? hy)).mp hend⟩
  · intro h i v hv
    rw [List.getElem?_map, Option.map_eq_some_iff] at hv
    obtain ⟨y, hy, rfl⟩ := hv
    obtain ⟨hbegin, hend⟩ := h _ hlo (fun z hz => (hall z hz).1) i y hy
    exact ⟨hbegin, (hvalue i y (List.mem_of_getElem? hy)).mpr hend⟩

theorem inLowerHalf_of_spread_zero {x : Native .int32} {rest : List (Native .int32)}
    (h : Width.spread .int32 (x :: rest) = 0) : InLowerHalf (x :: rest) := by
  rw [← endsLow_iff, h, Nat.size_zero]
  intro i v _
  rw [Nat.mul_zero, Nat.pow_zero, Nat.mul_one]
  exact ⟨by decide, v.isLt⟩

/-- The distances of a list are packed, and its values come back, exactly if it stays in the
lower half. -/
theorem distances_recovered_iff {x : Native .int32} {rest : List (Native .int32)}
    (hspread : Width.spread .int32 (x :: rest) < 2 ^ 31) (hne : (Width.spread .int32 (x :: rest)).size ≠ 0)
    {fetchOf : List (BitVec 64) → Words} (hfetch : ∀ packed k x, packed[k]? = some x → fetchOf packed k = some x)
    {mask : BitVec 64} (hmask : IsMask (Width.spread .int32 (x :: rest)).size mask) :
    (∃ packed, packAll (Width.spread .int32 (x :: rest)).size
          ((x :: rest).map fun y => y - (Native.bounds .int32 x rest).1) = .ok packed ∧
        ∀ (i : Nat) (y : Native .int32), (x :: rest)[i]? = some y →
          unpack (fetchOf packed) (Native.bounds .int32 x rest).1 mask (Width.spread .int32 (x :: rest)).size
            (i * (Width.spread .int32 (x :: rest)).size) = .ok y) ↔ InLowerHalf (x :: rest) := by
  have hsize : (Width.spread .int32 (x :: rest)).size ≤ 31 := Nat.size_le.mpr hspread
  have hfit : ∀ v ∈ (x :: rest).map (fun y => y - (Native.bounds .int32 x rest).1),
      v.toNat < 2 ^ (Width.spread .int32 (x :: rest)).size := by
    intro v hv
    obtain ⟨y, hy, rfl⟩ := List.mem_map.mp hv
    exact Width.sub_lt_width rfl hy
  have hw : 8 * DataType.int32.typeSize + (Width.spread .int32 (x :: rest)).size ≤ 64 := by
    show 32 + (Width.spread .int32 (x :: rest)).size ≤ 64
    omega
  rw [← endsLow_iff, ← recovered_iff (Nat.pos_of_ne_zero hne) hw hfit hfetch hmask]
  refine exists_congr fun packed => and_congr_right fun _ => ?_
  simp only [unpack_eq_ok]
  constructor
  · intro h i v hv
    rw [List.getElem?_map, Option.map_eq_some_iff] at hv
    obtain ⟨y, hy, rfl⟩ := hv
    exact h i y hy
  · intro h i y hy
    exact h i _ (by rw [List.getElem?_map, hy]; rfl)

end ColumnarStore.Standalone
