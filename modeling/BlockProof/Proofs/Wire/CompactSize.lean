import BlockProof.Proofs.Wire.Exact

/-!
# The one accepted form of a count

A number below `2 ^ 64` may be spelled in up to four forms: one byte, or a marker and two, four or
eight bytes. Reading accepts the shortest form and no other, and that is the form that is written.

* `CompactSize.Form bs n`       `bs` spells `n` in some form;
* `CompactSize.Shortest bs n`   no form spells `n` in fewer bytes;
* `CompactSize.shortest_iff`    the shortest form is the one that is written;
* `CompactSize.exact_decode`    reading accepts exactly that form;
* `CompactSize.RunsOut bs`      no form stands at the front of `bs`: it is cut short;
* `CompactSize.Overlong bs`     the form at the front of `bs` is not the shortest of its number;
* `CompactSize.decode_eq_error_iff`   these are the refusals;
* `CompactSize.counts_have_one_form`  the main result;
* `Fits size n`                 a list of `n` elements of `size` bytes is within the limit;
* `exact_readCount`             reading the count of a list accepts exactly those that fit.
-/

namespace BlockProof

namespace CompactSize

/-- the byte strings that spell a number -/
inductive Form : List UInt8 → Nat → Prop where
  /-- a byte that is no marker spells itself -/
  | plain {b : UInt8} (hb : b < 0xfd) : Form [b] b.toNat
  /-- two bytes after their marker -/
  | two {bs : List UInt8} (hlen : bs.length = 2) : Form (0xfd :: bs) (ofLittleEndian bs)
  /-- four bytes after their marker -/
  | four {bs : List UInt8} (hlen : bs.length = 4) : Form (0xfe :: bs) (ofLittleEndian bs)
  /-- eight bytes after their marker -/
  | eight {bs : List UInt8} (hlen : bs.length = 8) : Form (0xff :: bs) (ofLittleEndian bs)

/-- `bs` spells `n`, and nothing shorter does -/
def Shortest (bs : List UInt8) (n : Nat) : Prop :=
  Form bs n ∧ ∀ cs, Form cs n → bs.length ≤ cs.length

/-! ## the form that is written -/

theorem encode_eq (n : UInt64) : encode n =
    if n.toNat < 0xfd then [UInt8.ofNat n.toNat]
    else if n.toNat < 0x10000 then 0xfd :: littleEndian 2 n.toNat
    else if n.toNat < 0x100000000 then 0xfe :: littleEndian 4 n.toNat
    else 0xff :: littleEndian 8 n.toNat := by
  simp only [encode, UInt64.lt_iff_toNat_lt, UInt8.ofNat_uInt64ToNat]
  rfl

section
variable {n : UInt64}

theorem encode_plain (h : n.toNat < 0xfd) : encode n = [UInt8.ofNat n.toNat] := by
  rw [encode_eq, if_pos h]

theorem encode_two (hlo : 0xfd ≤ n.toNat) (hhi : n.toNat < 0x10000) :
    encode n = 0xfd :: littleEndian 2 n.toNat := by
  rw [encode_eq, if_neg (by omega), if_pos hhi]

theorem encode_four (hlo : 0x10000 ≤ n.toNat) (hhi : n.toNat < 0x100000000) :
    encode n = 0xfe :: littleEndian 4 n.toNat := by
  rw [encode_eq, if_neg (by omega), if_neg (by omega), if_pos hhi]

theorem encode_eight (hlo : 0x100000000 ≤ n.toNat) : encode n = 0xff :: littleEndian 8 n.toNat := by
  rw [encode_eq, if_neg (by omega), if_neg (by omega), if_neg (by omega)]

end

theorem encode_cases (n : UInt64) :
    (n.toNat < 0xfd ∧ encode n = [UInt8.ofNat n.toNat]) ∨
      (0xfd ≤ n.toNat ∧ n.toNat < 0x10000 ∧ encode n = 0xfd :: littleEndian 2 n.toNat) ∨
      (0x10000 ≤ n.toNat ∧ n.toNat < 0x100000000 ∧ encode n = 0xfe :: littleEndian 4 n.toNat) ∨
      (0x100000000 ≤ n.toNat ∧ encode n = 0xff :: littleEndian 8 n.toNat) := by
  by_cases h1 : n.toNat < 0xfd
  · exact .inl ⟨h1, encode_plain h1⟩
  · have hlo1 := Nat.not_lt.mp h1
    by_cases h2 : n.toNat < 0x10000
    · exact .inr (.inl ⟨hlo1, h2, encode_two hlo1 h2⟩)
    · have hlo2 := Nat.not_lt.mp h2
      by_cases h3 : n.toNat < 0x100000000
      · exact .inr (.inr (.inl ⟨hlo2, h3, encode_four hlo2 h3⟩))
      · have hlo3 := Nat.not_lt.mp h3
        exact .inr (.inr (.inr ⟨hlo3, encode_eight hlo3⟩))

theorem toNat_ofNat_of_lt_marker {n : Nat} (h : n < 0xfd) : (UInt8.ofNat n).toNat = n :=
  UInt8.toNat_ofNat_of_lt' (by
    show n < 256
    omega)

theorem ofNat_lt_marker {n : Nat} (h : n < 0xfd) : UInt8.ofNat n < 0xfd := by
  rw [UInt8.lt_iff_toNat_lt, toNat_ofNat_of_lt_marker h]
  exact h

theorem length_encode (n : UInt64) : (encode n).length =
    if n.toNat < 0xfd then 1 else if n.toNat < 0x10000 then 3
    else if n.toNat < 0x100000000 then 5 else 9 := by
  rw [encode_eq]
  split
  · rfl
  · split
    · simp
    · split <;> simp

/-! ## forms -/

/-- a form is determined by its length and its number, which the length bounds -/
theorem Form.cases {bs : List UInt8} {n : Nat} (h : Form bs n) :
    (n < 0xfd ∧ bs = [UInt8.ofNat n]) ∨
      (n < 0x10000 ∧ bs = 0xfd :: littleEndian 2 n) ∨
      (n < 0x100000000 ∧ bs = 0xfe :: littleEndian 4 n) ∨
      (n < UInt64.size ∧ bs = 0xff :: littleEndian 8 n) := by
  cases h with
  | @plain b hb =>
    have hlt : b.toNat < 0xfd := UInt8.lt_iff_toNat_lt.mp hb
    exact .inl ⟨hlt, by rw [UInt8.ofNat_toNat]⟩
  | two hlen =>
    obtain ⟨hbs, hlt⟩ := littleEndian_eq_iff.mpr ⟨hlen, rfl⟩
    exact .inr (.inl ⟨hlt, congrArg _ hbs⟩)
  | four hlen =>
    obtain ⟨hbs, hlt⟩ := littleEndian_eq_iff.mpr ⟨hlen, rfl⟩
    exact .inr (.inr (.inl ⟨hlt, congrArg _ hbs⟩))
  | eight hlen =>
    obtain ⟨hbs, hlt⟩ := littleEndian_eq_iff.mpr ⟨hlen, rfl⟩
    exact .inr (.inr (.inr ⟨hlt, congrArg _ hbs⟩))

theorem form_encode (n : UInt64) : Form (encode n) n.toNat := by
  have hread (w : Nat) (hlt : n.toNat < 1 <<< (8 * w)) :
      ofLittleEndian (littleEndian w n.toNat) = n.toNat :=
    (littleEndian_eq_iff.mp ⟨rfl, hlt⟩).2.symm
  rcases encode_cases n with ⟨h, he⟩ | ⟨-, h, he⟩ | ⟨-, h, he⟩ | ⟨-, he⟩
  · have hform := Form.plain (ofNat_lt_marker h)
    rwa [toNat_ofNat_of_lt_marker h, ← he] at hform
  · have hform := Form.two (length_littleEndian 2 n.toNat)
    rwa [hread 2 h, ← he] at hform
  · have hform := Form.four (length_littleEndian 4 n.toNat)
    rwa [hread 4 h, ← he] at hform
  · have hform := Form.eight (length_littleEndian 8 n.toNat)
    rwa [hread 8 n.toNat_lt, ← he] at hform

/-- the shortest form of a number is the one that is written -/
theorem shortest_iff {bs : List UInt8} {n : Nat} :
    Shortest bs n ↔ ∃ m : UInt64, m.toNat = n ∧ bs = encode m := by
  constructor
  · intro h
    obtain ⟨hform, hmin⟩ := h
    have hsize : n < UInt64.size := by
      have hcases := hform.cases
      have hval : UInt64.size = 18446744073709551616 := rfl
      omega
    have hm : (UInt64.ofNat n).toNat = n := UInt64.toNat_ofNat_of_lt' hsize
    refine ⟨UInt64.ofNat n, hm, ?_⟩
    have hle := hmin _ (hm ▸ form_encode (UInt64.ofNat n))
    rw [length_encode, hm] at hle
    rw [encode_eq, hm]
    rcases hform.cases with ⟨h1, rfl⟩ | ⟨h2, rfl⟩ | ⟨h3, rfl⟩ | ⟨h4, rfl⟩
    · rw [if_pos h1]
    · have h1 : ¬ n < 0xfd := fun h1 => by simp [h1] at hle
      rw [if_neg h1, if_pos h2]
    · have h1 : ¬ n < 0xfd := fun h1 => by simp [h1] at hle
      have h2 : ¬ n < 0x10000 := fun h2 => by simp [h1, h2] at hle
      rw [if_neg h1, if_neg h2, if_pos h3]
    · have h1 : ¬ n < 0xfd := fun h1 => by simp [h1] at hle
      have h2 : ¬ n < 0x10000 := fun h2 => by simp [h1, h2] at hle
      have h3 : ¬ n < 0x100000000 := fun h3 => by simp [h1, h2, h3] at hle
      rw [if_neg h1, if_neg h2, if_neg h3]
  · intro h
    obtain ⟨m, rfl, rfl⟩ := h
    refine ⟨form_encode m, ?_⟩
    intro cs hcs
    rw [length_encode]
    rcases hcs.cases with ⟨h1, rfl⟩ | ⟨h2, rfl⟩ | ⟨h3, rfl⟩ | ⟨h4, rfl⟩
    · rw [if_pos h1]
      rfl
    · simp only [List.length_cons, length_littleEndian, if_pos h2]
      split <;> omega
    · simp only [List.length_cons, length_littleEndian, if_pos h3]
      split
      · omega
      · split <;> omega
    · simp only [List.length_cons, length_littleEndian]
      split
      · omega
      · split
        · omega
        · split <;> omega

/-! ## reading -/

theorem decodeBody_eq_ok_iff {w least : Nat} (hw : w ≤ 8) {n : UInt64} {bs rest : List UInt8} :
    decodeBody w least bs = .ok (n, rest) ↔
      least ≤ n.toNat ∧ n.toNat < 1 <<< (8 * w) ∧ bs = littleEndian w n.toNat ++ rest := by
  simp only [decodeBody, bind_eq_ok_iff, Prod.exists, readNat_eq_ok_iff]
  constructor
  · intro h
    obtain ⟨m, b, ⟨hm, rfl⟩, h⟩ := h
    have hsize : m < UInt64.size := by
      refine hm.trans_le ?_
      rw [Nat.one_shiftLeft]
      exact Nat.pow_le_pow_right Nat.two_pos (Nat.mul_le_mul_left 8 hw)
    have hval : (UInt64.ofNat m).toNat = m := UInt64.toNat_ofNat_of_lt' hsize
    split at h
    · cases h
    · next hleast =>
      cases h
      rw [hval]
      exact ⟨Nat.not_lt.mp hleast, hm, rfl⟩
  · intro h
    obtain ⟨hleast, hlt, rfl⟩ := h
    refine ⟨n.toNat, rest, ⟨hlt, rfl⟩, ?_⟩
    rw [if_neg (Nat.not_lt.mpr hleast), UInt64.ofNat_toNat]

theorem decode_plain {b : UInt8} (hb : b < 0xfd) (bs : List UInt8) :
    decode (b :: bs) = .ok (b.toUInt64, bs) := by
  rw [decode, if_pos hb]

theorem decode_two (bs : List UInt8) : decode (0xfd :: bs) = decodeBody 2 0xfd bs := rfl

theorem decode_four (bs : List UInt8) : decode (0xfe :: bs) = decodeBody 4 0x10000 bs := rfl

theorem decode_eight (bs : List UInt8) : decode (0xff :: bs) = decodeBody 8 0x100000000 bs := rfl

theorem marker_cases (b : UInt8) : b < 0xfd ∨ b = 0xfd ∨ b = 0xfe ∨ b = 0xff := by
  have hlt := b.toNat_lt
  simp only [UInt8.lt_iff_toNat_lt, ← UInt8.toNat_inj]
  show b.toNat < 253 ∨ b.toNat = 253 ∨ b.toNat = 254 ∨ b.toNat = 255
  omega

theorem exact_decode : Exact decode (fun _ => True) encode := by
  intro bs n rest
  rw [true_and]
  constructor
  · intro h
    cases bs with
    | nil => cases h
    | cons b bs =>
      rcases marker_cases b with hb | rfl | rfl | rfl
      · rw [decode_plain hb] at h
        cases h
        have hlt : b.toUInt64.toNat < 0xfd := UInt8.lt_iff_toNat_lt.mp hb
        rw [encode_plain hlt, UInt8.toNat_toUInt64, UInt8.ofNat_toNat, List.singleton_append]
      · rw [decode_two, decodeBody_eq_ok_iff (by decide)] at h
        obtain ⟨hlo, hhi, rfl⟩ := h
        rw [encode_two hlo hhi, List.cons_append]
      · rw [decode_four, decodeBody_eq_ok_iff (by decide)] at h
        obtain ⟨hlo, hhi, rfl⟩ := h
        rw [encode_four hlo hhi, List.cons_append]
      · rw [decode_eight, decodeBody_eq_ok_iff (by decide)] at h
        obtain ⟨hlo, -, rfl⟩ := h
        rw [encode_eight hlo, List.cons_append]
  · intro h
    subst h
    rcases encode_cases n with ⟨h, he⟩ | ⟨hlo, hhi, he⟩ | ⟨hlo, hhi, he⟩ | ⟨hlo, he⟩
    · have hn : (UInt8.ofNat n.toNat).toUInt64 = n := by
        rw [← UInt64.toNat_inj, UInt8.toNat_toUInt64, toNat_ofNat_of_lt_marker h]
      rw [he, List.singleton_append, decode_plain (ofNat_lt_marker h), hn]
    · rw [he, List.cons_append, decode_two, decodeBody_eq_ok_iff (by decide)]
      exact ⟨hlo, hhi, rfl⟩
    · rw [he, List.cons_append, decode_four, decodeBody_eq_ok_iff (by decide)]
      exact ⟨hlo, hhi, rfl⟩
    · rw [he, List.cons_append, decode_eight, decodeBody_eq_ok_iff (by decide)]
      exact ⟨hlo, n.toNat_lt, rfl⟩

/-! ## refusals -/

/-- a marker, how many bytes follow it, and the least number that needs as many -/
inductive Marker : UInt8 → Nat → Nat → Prop where
  | two : Marker 0xfd 2 0xfd
  | four : Marker 0xfe 4 0x10000
  | eight : Marker 0xff 8 0x100000000

/-- there is no byte, or fewer after a marker than it announces -/
inductive RunsOut : List UInt8 → Prop where
  | empty : RunsOut []
  | body {m : UInt8} {w least : Nat} {bs : List UInt8} (hm : Marker m w least)
    (hlen : bs.length < w) : RunsOut (m :: bs)

/-- a form stands at the front of `bs` whose number has a shorter one -/
def Overlong (bs : List UInt8) : Prop :=
  ∃ front rest n, bs = front ++ rest ∧ Form front n ∧ ∃ cs, Form cs n ∧ cs.length < front.length

theorem decodeBody_eq_error_iff {w least : Nat} {bs : List UInt8} {e : WireError} :
    decodeBody w least bs = .error e ↔
      (bs.length < w ∧ e = .unexpectedEnd) ∨
        ∃ body rest, bs = body ++ rest ∧ body.length = w ∧ ofLittleEndian body < least ∧
          e = .nonMinimal := by
  simp only [decodeBody, readNat]
  cases hbs : takeBytes w bs with
  | error e' =>
    obtain ⟨hlen, rfl⟩ := takeBytes_eq_error_iff.mp hbs
    constructor
    · intro h
      cases h
      exact .inl ⟨hlen, rfl⟩
    · intro h
      rcases h with ⟨-, rfl⟩ | ⟨body, rest, rfl, hbody, -⟩
      · rfl
      · rw [List.length_append] at hlen
        omega
  | ok v =>
    obtain ⟨body, rest⟩ := v
    obtain ⟨hlen, rfl⟩ := takeBytes_eq_ok_iff.mp hbs
    show (if ofLittleEndian body < least then _ else _) = _ ↔ _
    constructor
    · intro h
      split at h
      · next hlt =>
        cases h
        exact .inr ⟨body, rest, rfl, hlen, hlt, rfl⟩
      · cases h
    · intro h
      rcases h with ⟨hshort, -⟩ | ⟨body', rest', heq, hlen', hlt, rfl⟩
      · rw [List.length_append] at hshort
        omega
      · obtain ⟨rfl, -⟩ := List.append_inj heq (hlen.trans hlen'.symm)
        rw [if_pos hlt]

theorem exists_shorter_iff {k n : Nat} (hn : n < UInt64.size) :
    (∃ cs, Form cs n ∧ cs.length < k) ↔
      (if n < 0xfd then 1
       else if n < 0x10000 then 3 else if n < 0x100000000 then 5 else 9) < k := by
  obtain ⟨m, rfl⟩ : ∃ m : UInt64, m.toNat = n := ⟨UInt64.ofNat n, UInt64.toNat_ofNat_of_lt' hn⟩
  rw [← length_encode]
  constructor
  · intro h
    obtain ⟨cs, hcs, hlt⟩ := h
    exact Nat.lt_of_le_of_lt ((shortest_iff.mpr ⟨m, rfl, rfl⟩).2 cs hcs) hlt
  · intro h
    exact ⟨encode m, form_encode m, h⟩

section
variable {m : UInt8} {w least : Nat} {bs : List UInt8}

theorem Marker.decode_cons (hm : Marker m w least) (bs : List UInt8) :
    decode (m :: bs) = decodeBody w least bs := by
  cases hm <;> rfl

theorem Marker.not_plain (hm : Marker m w least) : ¬ m < 0xfd := by
  cases hm <;> decide

theorem Marker.unique {w' least' : Nat} (hm : Marker m w least) (hm' : Marker m w' least') :
    w = w' ∧ least = least' := by
  cases hm <;> cases hm' <;> exact ⟨rfl, rfl⟩

theorem Marker.form_iff (hm : Marker m w least) {n : Nat} :
    Form (m :: bs) n ↔ bs.length = w ∧ n = ofLittleEndian bs := by
  constructor
  · intro h
    cases h with
    | plain hb => exact absurd hb hm.not_plain
    | two hlen =>
      cases hm
      exact ⟨hlen, rfl⟩
    | four hlen =>
      cases hm
      exact ⟨hlen, rfl⟩
    | eight hlen =>
      cases hm
      exact ⟨hlen, rfl⟩
  · intro h
    obtain ⟨hlen, rfl⟩ := h
    cases hm with
    | two => exact .two hlen
    | four => exact .four hlen
    | eight => exact .eight hlen

theorem Marker.runsOut_iff (hm : Marker m w least) : RunsOut (m :: bs) ↔ bs.length < w := by
  constructor
  · intro h
    cases h with
    | body hm' hlen =>
      obtain ⟨rfl, -⟩ := hm.unique hm'
      exact hlen
  · exact .body hm

theorem Marker.exists_shorter_iff (hm : Marker m w least) (hlen : bs.length = w) :
    (∃ cs, Form cs (ofLittleEndian bs) ∧ cs.length < (m :: bs).length) ↔
      ofLittleEndian bs < least := by
  have hlt := ofLittleEndian_lt bs
  have hsize : ofLittleEndian bs < UInt64.size := by
    refine hlt.trans_le ?_
    rw [hlen]
    cases hm <;> decide
  rw [CompactSize.exists_shorter_iff hsize, List.length_cons, hlen]
  cases hm <;> grind

theorem Form.ne_nil {n : Nat} (h : Form bs n) : bs ≠ [] := by
  cases h <;> exact List.cons_ne_nil _ _

theorem Marker.overlong_iff (hm : Marker m w least) :
    Overlong (m :: bs) ↔
      ∃ body rest, bs = body ++ rest ∧ body.length = w ∧ ofLittleEndian body < least := by
  constructor
  · intro h
    obtain ⟨front, rest, n, heq, hform, hshort⟩ := h
    cases front with
    | nil => exact absurd rfl hform.ne_nil
    | cons m' body =>
      obtain ⟨rfl, rfl⟩ := List.cons.inj heq
      obtain ⟨hlen, rfl⟩ := hm.form_iff.mp hform
      exact ⟨body, rest, rfl, hlen, (hm.exists_shorter_iff hlen).mp hshort⟩
  · intro h
    obtain ⟨body, rest, rfl, hlen, hlt⟩ := h
    exact ⟨m :: body, rest, ofLittleEndian body, rfl, hm.form_iff.mpr ⟨hlen, rfl⟩,
      (hm.exists_shorter_iff hlen).mpr hlt⟩

theorem not_runsOut_of_plain (hm : m < 0xfd) : ¬ RunsOut (m :: bs) := by
  intro h
  cases h with
  | body hmarker _ => exact hmarker.not_plain hm

theorem not_overlong_of_plain (hm : m < 0xfd) : ¬ Overlong (m :: bs) := by
  intro h
  obtain ⟨front, rest, n, heq, hform, cs, hcs, hlt⟩ := h
  have hone : front.length = 1 := by
    cases hform with
    | plain _ => rfl
    | two hlen => exact absurd hm ((List.cons.inj heq).1 ▸ Marker.two.not_plain)
    | four hlen => exact absurd hm ((List.cons.inj heq).1 ▸ Marker.four.not_plain)
    | eight hlen => exact absurd hm ((List.cons.inj heq).1 ▸ Marker.eight.not_plain)
  have hpos := List.length_pos_iff.mpr hcs.ne_nil
  omega

end

theorem plain_or_marker (b : UInt8) : b < 0xfd ∨ ∃ w least, Marker b w least := by
  rcases marker_cases b with hb | rfl | rfl | rfl
  · exact .inl hb
  · exact .inr ⟨_, _, .two⟩
  · exact .inr ⟨_, _, .four⟩
  · exact .inr ⟨_, _, .eight⟩

theorem decode_eq_error_iff {bs : List UInt8} {e : WireError} :
    decode bs = .error e ↔
      (RunsOut bs ∧ e = .unexpectedEnd) ∨ (Overlong bs ∧ e = .nonMinimal) := by
  cases bs with
  | nil =>
    constructor
    · intro h
      cases h
      exact .inl ⟨.empty, rfl⟩
    · intro h
      rcases h with ⟨-, rfl⟩ | ⟨⟨front, rest, n, heq, hform, -⟩, -⟩
      · rfl
      · exact absurd (List.append_eq_nil_iff.mp heq.symm).1 hform.ne_nil
  | cons m bs =>
    rcases plain_or_marker m with hm | ⟨w, least, hm⟩
    · rw [decode_plain hm]
      constructor
      · intro h
        cases h
      · intro h
        rcases h with ⟨hout, -⟩ | ⟨hlong, -⟩
        · exact absurd hout (not_runsOut_of_plain hm)
        · exact absurd hlong (not_overlong_of_plain hm)
    · rw [hm.decode_cons, decodeBody_eq_error_iff, hm.runsOut_iff, hm.overlong_iff]
      simp only [exists_and_right, ← and_assoc]

theorem encodedLength_eq (n : UInt64) : encodedLength n = (encode n).length := by
  rw [length_encode, encodedLength]
  simp only [UInt64.lt_iff_toNat_lt]
  rfl

/-- **A count has one accepted form.** What is written for a count reads back as that count,
whatever follows, and takes as many bytes as foretold. A count is read just where its written form
stands. Any other bytes are refused: where a marker has too few bytes after it, or there is no byte
at all, as cut short; where all bytes of a form are there, but the number has a shorter form, as not
minimal. -/
theorem counts_have_one_form :
    (∀ (n : UInt64) (rest : List UInt8), decode (encode n ++ rest) = .ok (n, rest)) ∧
    (∀ n : UInt64, encodedLength n = (encode n).length) ∧
    (∀ (bs : List UInt8) (n : UInt64) (rest : List UInt8),
      decode bs = .ok (n, rest) ↔ bs = encode n ++ rest) ∧
    ∀ (bs : List UInt8) (e : WireError), decode bs = .error e ↔
      (RunsOut bs ∧ e = .unexpectedEnd) ∨ (Overlong bs ∧ e = .nonMinimal) := by
  have haccepts (bs : List UInt8) (n : UInt64) (rest : List UInt8) :
      decode bs = .ok (n, rest) ↔ bs = encode n ++ rest := by
    rw [exact_decode bs n rest, true_and]
  exact ⟨fun n rest => (haccepts _ n rest).mpr rfl, encodedLength_eq, haccepts,
    fun _ _ => decode_eq_error_iff⟩

/-- a count that one byte holds, in three; and three bytes after a marker that announces four -/
example : decode [0xfd, 0xfc, 0x00] = .error .nonMinimal ∧
    decode [0xfe, 0x00, 0x00, 0x01] = .error .unexpectedEnd := ⟨rfl, rfl⟩

end CompactSize

/-! ## counts of lists -/

/-- a list of `n` elements of `size` bytes each stays within the limit -/
def Fits (size n : Nat) : Prop := n * size ≤ maxListBytes

def encodeCount (n : Nat) : List UInt8 := CompactSize.encode (UInt64.ofNat n)

theorem Fits.lt_size {size n : Nat} (hsize : 0 < size) (h : Fits size n) : n < UInt64.size := by
  have hle : n * 1 ≤ n * size := Nat.mul_le_mul_left n hsize
  have hmax : maxListBytes < UInt64.size := by decide
  rw [Fits] at h
  omega

theorem fits_iff_saturated {size n : Nat} :
    Fits size n ↔ ¬ maxListBytes < min (n * size) (UInt64.size - 1) := by
  have hmax : maxListBytes < UInt64.size - 1 := by decide
  rw [Fits]
  omega

theorem exact_readCount {size : Nat} (hsize : 0 < size) :
    Exact (readCount size) (Fits size) encodeCount := by
  intro bs n rest
  simp only [readCount, bind_eq_ok_iff, Prod.exists, CompactSize.exact_decode _ _ _, true_and]
  constructor
  · intro h
    obtain ⟨m, b, rfl, h⟩ := h
    split at h
    · cases h
    · next hfit =>
      cases h
      refine ⟨fits_iff_saturated.mpr hfit, ?_⟩
      rw [encodeCount, UInt64.ofNat_toNat]
  · intro h
    obtain ⟨hfit, rfl⟩ := h
    have hval : (UInt64.ofNat n).toNat = n := UInt64.toNat_ofNat_of_lt' (hfit.lt_size hsize)
    refine ⟨UInt64.ofNat n, rest, rfl, ?_⟩
    rw [hval, if_neg (fits_iff_saturated.mp hfit)]

/-- the counts that fit are spelled in their shortest form -/
theorem shortest_count_iff {size n : Nat} (hsize : 0 < size) (hfit : Fits size n)
    {bs : List UInt8} : CompactSize.Shortest bs n ↔ bs = encodeCount n := by
  rw [CompactSize.shortest_iff, encodeCount]
  constructor
  · intro h
    obtain ⟨m, rfl, rfl⟩ := h
    rw [UInt64.ofNat_toNat]
  · intro h
    exact ⟨UInt64.ofNat n, UInt64.toNat_ofNat_of_lt' (hfit.lt_size hsize), h⟩

end BlockProof
