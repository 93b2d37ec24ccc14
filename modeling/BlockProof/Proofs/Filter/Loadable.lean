import BlockProof.Filter
import BlockProof.Proofs.Filter.Sessions
import BlockProof.Proofs.Wire.Packing

/-!
# Filters stay loadable

A peer takes a filter as bytes, and refuses too many of them and too many hash functions. Both
limits are kept by every way to make a filter: sizes that are computed are capped, whatever the
formulas yield, and sizes that are received are checked. Nothing that is done with a filter changes
its shape, so it can be sent at any time, and the peer then has the same filter.

* `BloomFilter.WithinLimits`    what a peer asks of a filter;
* `BloomFilter.reload_iff`      a filter comes back from its own bytes just if it is within limits;
* `BloomFilter.Made`            the ways to make a filter;
* `BloomFilter.Loadable`, `BloomFilter.made_filters_stay_loadable`   the main result.
-/

namespace BlockProof

/-! ## computed sizes -/

theorem sizeFilter_le (elements : UInt64) (rate : Float) :
    (sizeFilter elements rate).sizeBytes ≤ maxFilterBytes ∧
      (sizeFilter elements rate).hashCount ≤ maxHashFunctions := by
  unfold sizeFilter
  split
  · exact ⟨by decide, by decide⟩
  · refine ⟨?_, ?_⟩
    · refine Nat.div_le_of_le_mul ?_
      rw [Nat.mul_comm 8]
      exact Nat.min_le_right _ _
    · exact Std.min_le_right

namespace BloomFilter

/-! ## loading -/

/-- a peer takes a filter of this length and with so many hash functions -/
structure WithinLimits (f : BloomFilter) : Prop where
  bytes : f.toBytes.length ≤ maxFilterBytes
  hashCount : f.hashCount ≤ maxHashFunctions

section
variable {f g : BloomFilter}

theorem size_bits_eq (f : BloomFilter) : f.bits.size = 8 * f.toBytes.length := by
  obtain ⟨k, hk⟩ := f.eight_dvd_size
  rw [toBytes, length_packBits]
  omega

theorem ofBytes_toBytes (f : BloomFilter) :
    ofBytes f.toBytes f.hashCount f.tweak f.update = f := by
  obtain ⟨⟨flags⟩, hashCount, tweak, update, hdvd⟩ := f
  unfold ofBytes toBytes
  simp only [unpackBits_packBits_of_dvd hdvd]

theorem ofBytes?_eq_ok_iff {bytes : List UInt8} {hashCount tweak : UInt32} {update : UpdateMode} :
    ofBytes? bytes hashCount tweak update = .ok f ↔
      bytes.length ≤ maxFilterBytes ∧ hashCount ≤ maxHashFunctions ∧
        ofBytes bytes hashCount tweak update = f := by
  unfold ofBytes?
  split
  · next hlong => simp [Nat.not_le.mpr hlong]
  · next hshort =>
    split
    · next hmany => simp [UInt32.not_le.mpr hmany]
    · next hfew => simp [Nat.not_lt.mp hshort, UInt32.not_lt.mp hfew]

/-- a filter comes back from its own bytes just if a peer takes it -/
theorem reload_iff :
    ofBytes? f.toBytes f.hashCount f.tweak f.update = .ok f ↔ f.WithinLimits := by
  rw [ofBytes?_eq_ok_iff]
  exact ⟨fun h => ⟨h.1, h.2.1⟩, fun h => ⟨h.bytes, h.hashCount, ofBytes_toBytes f⟩⟩

theorem Alike.withinLimits (h : f.Alike g) (hf : f.WithinLimits) : g.WithinLimits := by
  have hlen : g.toBytes.length = f.toBytes.length := by
    have hsize := h.size
    rw [size_bits_eq f, size_bits_eq g] at hsize
    exact Nat.eq_of_mul_eq_mul_left (by decide) hsize
  refine ⟨?_, ?_⟩
  · rw [hlen]
    exact hf.bytes
  · rw [h.hashCount]
    exact hf.hashCount

/-! ## making -/

theorem withinLimits_sized (elements : UInt64) (rate : Float) (tweak : UInt32)
    (update : UpdateMode) : (sized elements rate tweak update).WithinLimits := by
  obtain ⟨hbytes, hcount⟩ := sizeFilter_le elements rate
  have hsize : (sized elements rate tweak update).bits.size =
      8 * (sizeFilter elements rate).sizeBytes := Array.size_replicate
  rw [size_bits_eq] at hsize
  exact ⟨by omega, hcount⟩

theorem withinLimits_of_ofConfig? {c : FilterConfig} (h : ofConfig? c = .ok f) :
    f.WithinLimits := by
  obtain ⟨-, -, h⟩ := bind_eq_ok_iff.mp h
  rw [← Except.ok.inj h]
  exact withinLimits_sized _ _ _ _

theorem withinLimits_of_ofBytes? {bytes : List UInt8} {hashCount tweak : UInt32}
    {update : UpdateMode} (h : ofBytes? bytes hashCount tweak update = .ok f) :
    f.WithinLimits := by
  obtain ⟨hbytes, hcount, rfl⟩ := ofBytes?_eq_ok_iff.mp h
  refine ⟨?_, hcount⟩
  show (packBits (unpackBits bytes).toArray).length ≤ maxFilterBytes
  rw [packBits_unpackBits]
  exact hbytes

/-- the ways to make a filter: for a number of elements and any rate, from a configuration that is
accepted, from bytes that are accepted -/
inductive Made : BloomFilter → Prop where
  | sized (elements : UInt64) (rate : Float) (tweak : UInt32) (update : UpdateMode) :
      Made (sized elements rate tweak update)
  | ofConfig {c : FilterConfig} {f : BloomFilter} (h : ofConfig? c = .ok f) : Made f
  | ofBytes {bytes : List UInt8} {hashCount tweak : UInt32} {update : UpdateMode} {f : BloomFilter}
      (h : ofBytes? bytes hashCount tweak update = .ok f) : Made f

theorem Made.withinLimits (h : f.Made) : f.WithinLimits := by
  cases h with
  | sized elements rate tweak update => exact withinLimits_sized elements rate tweak update
  | ofConfig h => exact withinLimits_of_ofConfig? h
  | ofBytes h => exact withinLimits_of_ofBytes? h

end

/-! ## filters in use -/

/-- a peer takes the filter, and then has the same -/
structure Loadable (f : BloomFilter) : Prop extends WithinLimits f where
  wholeBytes : f.bits.size = 8 * f.toBytes.length
  reload : ofBytes? f.toBytes f.hashCount f.tweak f.update = .ok f

theorem WithinLimits.loadable {f : BloomFilter} (h : f.WithinLimits) : f.Loadable :=
  ⟨h, size_bits_eq f, reload_iff.mpr h⟩

/-- **A filter that was made stays loadable**, however it was made and whatever is done with it:
a peer takes its bytes and has the same filter. -/
theorem made_filters_stay_loadable {f : BloomFilter} (hmade : f.Made) (ops : List Operation) :
    (f.run ops).Loadable :=
  ((alike_run f ops).withinLimits hmade.withinLimits).loadable

/-- a filter for a thousand elements at no rate at all, and one from a peer that is put to use -/
theorem made_filters_stay_loadable_cases :
    (run (sized 1000 (0 / 0) 5 .none) [.insert [1], .clear]).Loadable ∧
      ∃ f, ofBytes? [0xff, 0x00] 50 0 .all = .ok f ∧
        (f.run [.clear, .insert [1, 2], .insertOutPoint ⟨Hash.zero, 1⟩,
          .matchTransaction ⟨Hash.zero, [⟨Hash.zero, 1⟩], [⟨0, [2, 1, 2]⟩]⟩]).Loadable := by
  have hload : ofBytes? [0xff, 0x00] 50 0 .all = .ok (ofBytes [0xff, 0x00] 50 0 .all) :=
    ofBytes?_eq_ok_iff.mpr ⟨by decide, by decide, rfl⟩
  exact ⟨made_filters_stay_loadable (.sized 1000 (0 / 0) 5 .none) _, _, hload,
    made_filters_stay_loadable (.ofBytes hload) _⟩

end BloomFilter

end BlockProof
