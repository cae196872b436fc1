import ColumnarStore.Standalone.Fields

/-! What the standalone unpackers read.

A field is taken out of the word or the two words it lies in. The scalar loops keep a
running position; the vector ones multiply, and take whole blocks ahead of a tail. An
array of words is read through a function from positions to words (`Words`): a vector
and a buffer of bytes are read alike. -/
namespace ColumnarStore.Standalone
open Foundation Foundation.Packing Encoding
variable {w : Nat}

/-! ### Taking fields out -/

/-- `packed[k]`, as far as it is in bounds. -/
abbrev Words := Nat → Option (BitVec 64)

def vectorWords (packed : List (BitVec 64)) : Words := fun k => packed[k]?

def bufferWords (src : List UInt8) : Words := fun k => loadWord 8 (src.drop (8 * k))

theorem vectorWords_eq (packed : List (BitVec 64)) (k : Nat) (x : BitVec 64) (h : packed[k]? = some x) :
    vectorWords packed k = some x := h

theorem bufferWords_storeWords (packed : List (BitVec 64)) (k : Nat) (x : BitVec 64) (h : packed[k]? = some x) :
    bufferWords (storeWords 8 packed) k = some x := loadWord_storeWords_self (n := 8) h

/-- The field at `bitPos` with what stands above it in its word or words. -/
def window (fetch : Words) (bits bitPos : Nat) : Outcome (BitVec 64) := do
  let word := bitPos / 64
  let offset := bitPos % 64
  let low ← orFault .outOfBounds (fetch word)
  if offset + bits ≤ 64 then return low >>> offset
  else do
    let next ← orFault .outOfBounds (fetch (word + 1))
    let high ← checkedShiftLeft .shiftWidth next (64 - offset)
    return low >>> offset ||| high

def extract (fetch : Words) (mask : BitVec 64) (bits bitPos : Nat) : Outcome (BitVec 64) := do
  let value ← window fetch bits bitPos
  return value &&& mask

/-- The value whose distance from `base` is the field at `bitPos`; addition wraps. -/
def unpack (fetch : Words) (base : BitVec w) (mask : BitVec 64) (bits bitPos : Nat) : Outcome (BitVec w) := do
  let value ← extract fetch mask bits bitPos
  return base + value.setWidth w

/-- The loop over `count` fields with a running position. -/
def fieldsFrom {α : Type} (read : Nat → Outcome α) (bits : Nat) : Nat → Nat → Outcome (List α)
  | 0, _ => .ok []
  | count + 1, bitPos => do
    let x ← read bitPos
    let rest ← fieldsFrom read bits count (bitPos + bits)
    return x :: rest

/-- `for (; i + (lanes - 1) < count; i += lanes)` over whole blocks, then the rest one by one. -/
def blocked {α : Type} (lanes count : Nat) (block : Nat → Outcome (List α)) (single : Nat → Outcome α) :
    Outcome (List α) := do
  let blocks ← (List.range (count / lanes)).mapM fun b => block (b * lanes)
  let tail ← (List.range (count % lanes)).mapM fun k => single (count / lanes * lanes + k)
  return blocks.flatten ++ tail

/-- As many words as the fields need hold all of them. -/
theorem le_packedWords (bits n : Nat) : n * bits ≤ 64 * packedWords bits n := by
  rw [packedWords]
  omega

theorem field_le_packedWords {bits n i : Nat} (hi : i < n) : i * bits + bits ≤ 64 * packedWords bits n := by
  rw [← Nat.succ_mul]
  exact (Nat.mul_le_mul_right bits hi).trans (le_packedWords bits n)

/-! ### The loops over fields -/

theorem fieldsFrom_eq {α : Type} (read : Nat → Outcome α) (bits count bitPos : Nat) :
    fieldsFrom read bits count bitPos = (List.range count).mapM fun i => read (bitPos + i * bits) := by
  induction count generalizing bitPos with
  | zero => rfl
  | succ count ih =>
    rw [fieldsFrom, ih, List.range_succ_eq_map, List.mapM_cons, List.mapM_map, Nat.zero_mul, Nat.add_zero]
    have hnext : ∀ i, bitPos + bits + i * bits = bitPos + (i + 1) * bits := fun i => by
      rw [Nat.succ_mul]
      omega
    simp only [hnext]
    rfl

/-- A loop over all fields gives what every field is read as. -/
theorem fieldsFrom_eq_ok {α : Type} {read : Nat → Outcome α} {bits count : Nat} {xs : List α} :
    fieldsFrom read bits count 0 = .ok xs ↔
      xs.length = count ∧ ∀ (i : Nat) (x : α), xs[i]? = some x → read (i * bits) = .ok x := by
  rw [fieldsFrom_eq, mapM_range_eq_ok]
  simp only [Nat.zero_add]

/-- Blocks that hold what their positions hold make up the whole. -/
theorem blocked_ok {α : Type} {lanes count : Nat} {block : Nat → Outcome (List α)} {single : Nat → Outcome α}
    {f : Nat → α}
    (hblock : ∀ b < count / lanes, block (b * lanes) = .ok ((List.range lanes).map fun j => f (b * lanes + j)))
    (hsingle : ∀ i < count, count / lanes * lanes ≤ i → single i = .ok (f i)) :
    blocked lanes count block single = .ok ((List.range count).map f) := by
  have hblocks : ((List.range (count / lanes)).mapM fun b => block (b * lanes)) =
      .ok ((List.range (count / lanes)).map fun b => (List.range lanes).map fun j => f (b * lanes + j)) :=
    mapM_ok fun b hb => hblock b (List.mem_range.mp hb)
  have hsplit : count / lanes * lanes + count % lanes = count := by
    rw [Nat.mul_comm, Nat.div_add_mod]
  have htail : ((List.range (count % lanes)).mapM fun k => single (count / lanes * lanes + k)) =
      .ok ((List.range (count % lanes)).map fun k => f (count / lanes * lanes + k)) :=
    mapM_ok fun k hk => hsingle _ (by have := List.mem_range.mp hk; omega) (Nat.le_add_right _ _)
  have hwhole : ∀ m, ((List.range m).map fun b => (List.range lanes).map fun j => f (b * lanes + j)).flatten =
      (List.range (m * lanes)).map f := by
    intro m
    induction m with
    | zero => simp
    | succ m ih =>
      rw [List.range_succ, List.map_append, List.flatten_append, ih, Nat.succ_mul, List.range_add, List.map_append,
        List.map_map]
      simp [Function.comp_def]
  rw [blocked, hblocks, bind_ok, htail, bind_ok, pure_eq_ok, hwhole]
  conv_rhs => rw [← hsplit, List.range_add, List.map_append, List.map_map]
  rfl

/-- Blocks that read their positions one after the other read what a plain loop reads, faults included. -/
theorem blocked_eq_mapM {α : Type} (lanes count : Nat) (block : Nat → Outcome (List α)) (single : Nat → Outcome α)
    (hblock : ∀ b, block (b * lanes) = (List.range lanes).mapM fun j => single (b * lanes + j)) :
    blocked lanes count block single = (List.range count).mapM single := by
  have hwhole : ∀ m, ((List.range m).mapM (fun b => block (b * lanes)) >>= fun blocks => Except.ok blocks.flatten) =
      (List.range (m * lanes)).mapM single := by
    intro m
    induction m with
    | zero => rw [Nat.zero_mul]; rfl
    | succ m ih =>
      rw [List.range_succ, Nat.succ_mul, List.range_add, List.mapM_append, List.mapM_append, ← ih, List.mapM_map,
        List.mapM_cons, List.mapM_nil, hblock m]
      show _ = ((List.range m).mapM (fun b => block (b * lanes)) >>= fun blocks => Except.ok blocks.flatten) >>=
        fun first => (List.range lanes).mapM (fun j => single (m * lanes + j)) >>= fun last => Except.ok (first ++ last)
      cases (List.range m).mapM fun b => block (b * lanes) with
      | error e => rfl
      | ok blocks =>
        cases (List.range lanes).mapM fun j => single (m * lanes + j) with
        | error e => rfl
        | ok last =>
          show Except.ok (blocks ++ [last]).flatten = Except.ok (blocks.flatten ++ last)
          rw [List.flatten_append, List.flatten_singleton]
  have hsplit : count / lanes * lanes + count % lanes = count := by
    rw [Nat.mul_comm, Nat.div_add_mod]
  unfold blocked
  conv_rhs => rw [← hsplit, List.range_add, List.mapM_append, ← hwhole, List.mapM_map]
  cases (List.range (count / lanes)).mapM fun b => block (b * lanes) <;> rfl

/-- Blocks make up the values of the positions just when every block holds those of its own. -/
theorem blocked_eq_ok_iff {α : Type} {lanes count : Nat} {block : Nat → Outcome (List α)} {single : Nat → Outcome α}
    {f : Nat → α} {g : Nat → Fin lanes → α} (hblock : ∀ b < count / lanes, block (b * lanes) = .ok (List.ofFn (g b)))
    (hsingle : ∀ i < count, single i = .ok (f i)) :
    blocked lanes count block single = .ok ((List.range count).map f) ↔
      ∀ b < count / lanes, ∀ j : Fin lanes, f (b * lanes + j) = g b j := by
  have hfull : ∀ b < count / lanes, b * lanes + lanes ≤ count / lanes * lanes := fun b hb => by
    rw [← Nat.succ_mul]
    exact Nat.mul_le_mul_right lanes hb
  -- What stands at a position: the lane of a whole block, or a field of the tail.
  let f' : Nat → α := fun i =>
    if h : i < count / lanes * lanes then
      g (i / lanes) ⟨i % lanes, Nat.mod_lt _ (Nat.pos_of_ne_zero fun h0 => by simp [h0] at h)⟩
    else f i
  have hlane : ∀ b < count / lanes, ∀ j : Fin lanes, f' (b * lanes + j) = g b j := by
    intro b hb j
    have hin : b * lanes + j < count / lanes * lanes := by
      have := hfull b hb
      omega
    obtain ⟨hdiv, hmod⟩ := div_mod_window (k := b) j.isLt
    simp only [f', dif_pos hin, hdiv, hmod]
  have htail : ∀ i, count / lanes * lanes ≤ i → f' i = f i := fun i hi => dif_neg (not_lt.mpr hi)
  have hwhole : blocked lanes count block single = .ok ((List.range count).map f') := by
    refine blocked_ok (fun b hb => ?_) fun i hi hle => ?_
    · rw [hblock b hb]
      refine congrArg _ (List.ext_getElem (by simp) fun j hj _ => ?_)
      rw [List.getElem_ofFn, List.getElem_map, List.getElem_range]
      exact (hlane b hb ⟨j, by simpa using hj⟩).symm
    · rw [hsingle i hi, htail i hle]
  rw [hwhole, Except.ok.injEq, List.map_inj_left]
  constructor
  · intro h b hb j
    have hend := hfull b hb
    have hle := Nat.div_mul_le_self count lanes
    rw [← hlane b hb j]
    exact (h _ (List.mem_range.mpr (by omega))).symm
  · intro h i hi
    by_cases hin : i < count / lanes * lanes
    · have hpos : 0 < lanes := Nat.pos_of_ne_zero fun h0 => by simp [h0] at hin
      have hb : i / lanes < count / lanes := Nat.div_lt_of_lt_mul (by rwa [Nat.mul_comm])
      have heq := h (i / lanes) hb ⟨i % lanes, Nat.mod_lt _ hpos⟩
      simp only [f', dif_pos hin, ← heq]
      congr 1
      rw [Nat.mul_comm, Nat.div_add_mod]
    · exact htail i (not_lt.mp hin)

/-- The same for blocks that may fault, but return as many values as they have lanes. -/
theorem blocked_eq_ok_iff_blocks {α : Type} [Inhabited α] {lanes count : Nat} {block : Nat → Outcome (List α)}
    {single : Nat → Outcome α} {f : Nat → α}
    (hsize : ∀ b ys, block b = .ok ys → ys.length = lanes) (hsingle : ∀ i < count, single i = .ok (f i)) :
    blocked lanes count block single = .ok ((List.range count).map f) ↔
      ∀ b < count / lanes, block (b * lanes) = .ok (List.ofFn fun j : Fin lanes => f (b * lanes + j)) := by
  constructor
  · intro h
    obtain ⟨blocks, hblocks, -⟩ := bind_eq_ok.mp h
    obtain ⟨hcount, hall⟩ := mapM_range_eq_ok.mp hblocks
    have hlanes : ∀ ys : List α, ys.length = lanes → ∃ g : Fin lanes → α, ys = List.ofFn g := by
      intro ys hys
      subst hys
      exact ⟨_, List.ofFn_getElem.symm⟩
    have hblock : ∀ b < count / lanes, ∃ g : Fin lanes → α, block (b * lanes) = .ok (List.ofFn g) := by
      intro b hb
      have hok := hall b _ (List.getElem?_eq_getElem (hb.trans_eq hcount.symm))
      obtain ⟨g, hg⟩ := hlanes _ (hsize _ _ hok)
      exact ⟨g, hok.trans (congrArg _ hg)⟩
    intro b hb
    choose! g hg using hblock
    have hsame := (blocked_eq_ok_iff hg hsingle).mp h b hb
    rw [hg b hb, funext hsame]
  · intro h
    refine blocked_ok (fun b hb => ?_) fun i hi _ => hsingle i hi
    rw [h b hb]
    refine congrArg _ (List.ext_getElem (by simp) fun j _ _ => ?_)
    rw [List.getElem_ofFn, List.getElem_map, List.getElem_range]

/-- Reads that do not fault, as a function. -/
theorem exists_read {α : Type} [Inhabited α] {read : Nat → Outcome α} {n : Nat} (h : ∀ i < n, ∃ x, read i = .ok x) :
    ∃ f : Nat → α, ∀ i < n, read i = .ok (f i) := by
  refine ⟨fun i => (read i).toOption.getD default, fun i hi => ?_⟩
  obtain ⟨x, hx⟩ := h i hi
  show _ = Except.ok ((read i).toOption.getD default)
  rw [hx]
  rfl

theorem fieldsFrom_ok {α : Type} {read : Nat → Outcome α} {bits count : Nat} {f : Nat → α}
    (h : ∀ i < count, read (i * bits) = .ok (f i)) : fieldsFrom read bits count 0 = .ok ((List.range count).map f) := by
  rw [fieldsFrom_eq]
  simp only [Nat.zero_add]
  exact mapM_ok fun i hi => h i (List.mem_range.mp hi)

/-- Blocks of single reads. -/
theorem blocked_singles_ok {α : Type} {lanes count bits : Nat} {block : Nat → Outcome (List α)}
    {read : Nat → Outcome α} {f : Nat → α}
    (hblock : ∀ b < count / lanes,
      block (b * lanes) = (List.range lanes).mapM fun j => read ((b * lanes + j) * bits))
    (h : ∀ i < count, read (i * bits) = .ok (f i)) :
    blocked lanes count block (fun i => read (i * bits)) = .ok ((List.range count).map f) := by
  refine blocked_ok (fun b hb => ?_) fun i hi _ => h i hi
  have hend : b * lanes + lanes ≤ count := by
    rw [← Nat.succ_mul]
    exact (Nat.mul_le_mul_right lanes hb).trans (Nat.div_mul_le_self count lanes)
  rw [hblock b hb]
  exact mapM_ok fun j hj => h _ (by have := List.mem_range.mp hj; omega)

/-- Fields read one after another and in blocks of single reads are the same fields. -/
theorem fieldsFrom_eq_blocked {α : Type} [Inhabited α] {lanes count bits : Nat} {read : Nat → Outcome α}
    (h : ∀ i < count, ∃ x, read (i * bits) = .ok x) :
    ∃ values, fieldsFrom read bits count 0 = .ok values ∧
      blocked lanes count (fun i => (List.range lanes).mapM fun j => read ((i + j) * bits))
        (fun i => read (i * bits)) = .ok values := by
  obtain ⟨f, hf⟩ := exists_read h
  exact ⟨(List.range count).map f, fieldsFrom_ok hf, blocked_singles_ok (fun b _ => rfl) hf⟩

/-! ### What a field reads as -/

theorem position_split (bitPos : Nat) : bitPos = bitPos / 64 * 64 + bitPos % 64 := by omega

/-- A field inside the words is read, whatever stands above it. -/
theorem window_ok {fetch : Words} {words : List (BitVec 64)} (hfetch : ∀ k x, words[k]? = some x → fetch k = some x)
    {bits bitPos : Nat} (h : 0 < bits) (h' : bits ≤ 64) (hend : bitPos + bits ≤ 64 * words.length) :
    ∃ v, window fetch bits bitPos = .ok v ∧ ∀ j < bits, v.getLsbD j = bitAt words (bitPos + j) := by
  have hoff : bitPos % 64 < 64 := Nat.mod_lt _ (by decide)
  have hword : bitPos / 64 < words.length := by omega
  have hlow := List.getElem?_eq_getElem hword
  have hbit : ∀ j, bitPos % 64 + j < 64 →
      words[bitPos / 64].getLsbD (bitPos % 64 + j) = bitAt words (bitPos + j) := by
    intro j hj
    rw [← bitAt_window hj hlow, ← Nat.add_assoc, ← position_split]
  rw [window, hfetch _ _ hlow, orFault_some, bind_ok]
  by_cases hone : bitPos % 64 + bits ≤ 64
  · refine ⟨words[bitPos / 64] >>> (bitPos % 64), if_pos hone, fun j hj => ?_⟩
    rw [BitVec.getLsbD_ushiftRight, hbit j (by omega)]
  · have hnext : bitPos / 64 + 1 < words.length := by omega
    have hhigh := List.getElem?_eq_getElem hnext
    refine ⟨words[bitPos / 64] >>> (bitPos % 64) ||| words[bitPos / 64 + 1] <<< (64 - bitPos % 64), ?_, fun j hj => ?_⟩
    · rw [if_neg hone, hfetch _ _ hhigh, orFault_some, bind_ok,
        checkedShiftLeft_ok _ _ (show 64 - bitPos % 64 < 64 by omega), bind_ok, pure_eq_ok]
    · rw [BitVec.getLsbD_or, BitVec.getLsbD_ushiftRight, BitVec.getLsbD_shiftLeft]
      by_cases hin : bitPos % 64 + j < 64
      · rw [hbit j hin]
        simp [show j < 64 - bitPos % 64 by omega]
      · have hzero : words[bitPos / 64].getLsbD (bitPos % 64 + j) = false := BitVec.getLsbD_of_ge _ _ (by omega)
        have hpos : bitPos + j = (bitPos / 64 + 1) * 64 + (j - (64 - bitPos % 64)) := by omega
        rw [hzero, hpos, bitAt_window (show j - (64 - bitPos % 64) < 64 by omega) hhigh]
        simp [show j < 64 by omega, show ¬ j < 64 - bitPos % 64 by omega]

/-- A field that is read ends inside the words. -/
theorem fetch_of_window {fetch : Words} {bits bitPos : Nat} {v : BitVec 64} (h : 0 < bits) (h' : bits ≤ 64)
    (hread : window fetch bits bitPos = .ok v) : ∃ x, fetch ((bitPos + bits - 1) / 64) = some x := by
  obtain ⟨low, hlow, hread⟩ := bind_eq_ok.mp hread
  by_cases hone : bitPos % 64 + bits ≤ 64
  · rw [show (bitPos + bits - 1) / 64 = bitPos / 64 by omega]
    exact ⟨low, orFault_eq_ok.mp hlow⟩
  · rw [if_neg hone] at hread
    obtain ⟨next, hnext, -⟩ := bind_eq_ok.mp hread
    rw [show (bitPos + bits - 1) / 64 = bitPos / 64 + 1 by omega]
    exact ⟨next, orFault_eq_ok.mp hnext⟩

theorem unpack_ok {fetch : Words} {words : List (BitVec 64)} (hfetch : ∀ k x, words[k]? = some x → fetch k = some x)
    {bits bitPos : Nat} (h : 0 < bits) (h' : bits ≤ 64) (hend : bitPos + bits ≤ 64 * words.length) (base : BitVec w)
    (mask : BitVec 64) : ∃ x, unpack fetch base mask bits bitPos = .ok x := by
  obtain ⟨v, hread, -⟩ := window_ok hfetch h h' hend
  exact ⟨base + (v &&& mask).setWidth w, by rw [unpack, extract, hread, bind_ok, pure_eq_ok, bind_ok, pure_eq_ok]⟩

theorem extract_ok {fetch : Words} {words : List (BitVec 64)} (hfetch : ∀ k x, words[k]? = some x → fetch k = some x)
    {bits bitPos : Nat} {mask : BitVec 64} (hmask : IsMask bits mask) (h : 0 < bits) (h' : bits ≤ 64)
    (hend : bitPos + bits ≤ 64 * words.length) :
    ∃ v, extract fetch mask bits bitPos = .ok v ∧
      ∀ j < 64, v.getLsbD j = (decide (j < bits) && bitAt words (bitPos + j)) := by
  obtain ⟨v, hread, hbits⟩ := window_ok hfetch h h' hend
  refine ⟨v &&& mask, by rw [extract, hread, bind_ok, pure_eq_ok], fun j hj => ?_⟩
  rw [BitVec.getLsbD_and, hmask j hj]
  by_cases hin : j < bits
  · simp [hin, hbits j hin]
  · simp [hin]

/-- A packed value is read back. -/
theorem extract_packed {fetch : Words} {words : List (BitVec 64)}
    (hfetch : ∀ k x, words[k]? = some x → fetch k = some x) {bits : Nat} {mask : BitVec 64}
    (hmask : IsMask bits mask) (h : 0 < bits) (h' : bits ≤ 64) {values : List Nat}
    (hpacked : Packed (BitPacking.position bits) values words) (hfit : ∀ v ∈ values, v < 2 ^ bits)
    (hlen : values.length * bits ≤ 64 * words.length) {i v : Nat} (hv : values[i]? = some v) :
    extract fetch mask bits (i * bits) = .ok (BitVec.ofNat 64 v) := by
  have hi : i * bits + bits ≤ values.length * bits := by
    rw [← Nat.succ_mul]
    exact Nat.mul_le_mul_right bits (List.getElem?_eq_some_iff.mp hv).1
  obtain ⟨x, hread, hbits⟩ := extract_ok hfetch hmask h h' (hi.trans hlen)
  rw [hread]
  refine congrArg _ (BitVec.eq_of_getLsbD_eq fun j hj => ?_)
  rw [hbits j hj, BitVec.getLsbD_ofNat]
  by_cases hin : j < bits
  · rw [← BitPacking.position, hpacked.bitAt_field (BitPacking.position_next bits) hfit hv hin]
    simp [hin, hj]
  · have hlt := (hfit v (List.mem_of_getElem? hv)).trans_le (Nat.pow_le_pow_right (by decide) (not_lt.mp hin))
    rw [Nat.testBit_lt_two_pow hlt]
    simp [hin]

theorem unpack_eq_ok {fetch : Words} {base x : BitVec w} {mask : BitVec 64} {bits bitPos : Nat} :
    unpack fetch base mask bits bitPos = .ok x ↔
      ∃ e, extract fetch mask bits bitPos = .ok e ∧ e.setWidth w = x - base := by
  rw [unpack, bind_eq_ok]
  refine exists_congr fun e => and_congr_right fun _ => ?_
  rw [pure_eq_ok, Except.ok.injEq, BitVec.eq_sub_iff_add_eq, BitVec.add_comm]

/-- 64-bit values that fit their fields are packed and read back, each from its field. -/
theorem packAll_recovered {bits : Nat} (h : 0 < bits) (h' : bits ≤ 64) {values : List (BitVec 64)}
    (hfit : ∀ v ∈ values, v.toNat < 2 ^ bits) :
    ∃ packed, packAll bits values = .ok packed ∧ ∀ (fetch : Words) (mask : BitVec 64),
      (∀ k x, packed[k]? = some x → fetch k = some x) → IsMask bits mask →
        ∀ (i : Nat) (v : BitVec 64), values[i]? = some v → extract fetch mask bits (i * bits) = .ok v := by
  obtain ⟨packed, hok, hpacked⟩ := packAll_wide h h' hfit
  refine ⟨packed, hok, fun fetch mask hfetch hmask i v hv => ?_⟩
  have hread := extract_packed hfetch hmask h h' hpacked (by simpa using hfit)
    (by rw [List.length_map, length_packAll hok]; exact le_packedWords bits values.length)
    (show (values.map BitVec.toNat)[i]? = some v.toNat by rw [List.getElem?_map, hv]; rfl)
  rwa [BitVec.ofNat_toNat, BitVec.setWidth_eq] at hread

/-- What a mask has above the width of the result does not matter. -/
theorem unpack_setWidth_mask (hw : w ≤ 64) (fetch : Words) (base : BitVec w) (mask : BitVec 64) (bits bitPos : Nat) :
    unpack fetch base ((mask.setWidth w).setWidth 64) bits bitPos = unpack fetch base mask bits bitPos := by
  have hcut : ∀ v : BitVec 64, (v &&& (mask.setWidth w).setWidth 64).setWidth w = (v &&& mask).setWidth w := by
    intro v
    rw [BitVec.setWidth_and, BitVec.setWidth_and, BitVec.setWidth_setWidth_of_le _ hw, BitVec.setWidth_eq]
  unfold unpack extract
  cases window fetch bits bitPos with
  | error e => rfl
  | ok v =>
    simp only [bind_ok, pure_eq_ok, hcut]

/-- The words at the head of a buffer. -/
theorem bufferWords_eq {src : List UInt8} {words : List (BitVec 64)}
    (h : loadWords 8 words.length src = some words) (k : Nat) (x : BitVec 64) (hx : words[k]? = some x) :
    bufferWords src k = some x := by
  have hsplit : storeWords 8 words ++ src.drop (8 * words.length) = src := by
    rw [storeWords_loadWords h, List.take_append_drop]
  rw [bufferWords, ← hsplit]
  exact loadWord_storeWords hx _

/-- The distances of 64-bit values are packed, and the values come back, whatever the range. -/
theorem distances_recovered {x : Native .int64} {rest : List (Native .int64)}
    (hne : (Width.spread .int64 (x :: rest)).size ≠ 0) :
    ∃ packed, packAll (Width.spread .int64 (x :: rest)).size
        ((x :: rest).map fun y => y - (Native.bounds .int64 x rest).1) = .ok packed ∧
      packed.length = packedWords (Width.spread .int64 (x :: rest)).size (x :: rest).length ∧
      ∀ (fetch : Words) (mask : BitVec 64), (∀ k x, packed[k]? = some x → fetch k = some x) →
        IsMask (Width.spread .int64 (x :: rest)).size mask →
          ∀ (i : Nat) (y : Native .int64), (x :: rest)[i]? = some y →
            unpack fetch (Native.bounds .int64 x rest).1 mask (Width.spread .int64 (x :: rest)).size
              (i * (Width.spread .int64 (x :: rest)).size) = .ok y := by
  have hsize : (Width.spread .int64 (x :: rest)).size ≤ 64 := Width.size_spread_le (t := .int64) rfl (x :: rest)
  have hfit : ∀ v ∈ (x :: rest).map (fun y => y - (Native.bounds .int64 x rest).1),
      v.toNat < 2 ^ (Width.spread .int64 (x :: rest)).size := by
    intro v hv
    obtain ⟨y, hy, rfl⟩ := List.mem_map.mp hv
    exact Width.sub_lt_width (t := .int64) rfl hy
  obtain ⟨packed, hpacked, hread⟩ := packAll_recovered (Nat.pos_of_ne_zero hne) hsize hfit
  have hlen := (length_packAll hpacked).trans (congrArg _ (List.length_map _))
  refine ⟨packed, hpacked, hlen, fun fetch mask hfetch hmask i y hy => ?_⟩
  have hvalue : ((x :: rest).map fun y => y - (Native.bounds .int64 x rest).1)[i]? =
      some (y - (Native.bounds .int64 x rest).1) := by
    rw [List.getElem?_map, hy]
    rfl
  exact unpack_eq_ok.mpr ⟨_, hread fetch mask hfetch hmask i _ hvalue, BitVec.setWidth_eq _⟩

end ColumnarStore.Standalone
