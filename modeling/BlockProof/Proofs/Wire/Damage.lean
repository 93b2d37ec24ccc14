import BlockProof.Proofs.Wire.Exact

/-!
# Messages that were damaged at their end

A reader takes the bytes of a value off the front of its input. If it delimits its values, these
bytes are read in the same way whatever follows them, and none of their beginnings is enough: the
reader runs out there, and no rule on counts or limits speaks first. Readers of fields that delimit
their values make readers of records that do. So the end of an accepted message may be cut off or
grow by any bytes, and what has happened is told from the cause of the refusal.

* `Delimited r x front`   `front` is what `r` takes for `x`;
* `Delimits r`            whatever `r` takes is delimited;
* `Delimits.bind`, `Delimits.of_cons`, `Delimits.readMany`   readers put together;
* `delimits_readTree`, `delimits_readMerkleBlock`   the readers of messages;
* `TellsDamage`, `damage_at_the_end_is_told`   the main result.
-/

namespace BlockProof

/-! ## delimited values -/

/-- `r` takes `front` for `x`, whatever follows, and runs out wherever `front` is cut -/
structure Delimited {α : Type} (r : Reader α) (x : α) (front : List UInt8) : Prop where
  read : ∀ rest, r (front ++ rest) = .ok (x, rest)
  cut : ∀ k < front.length, r (front.take k) = .error .unexpectedEnd

/-- whatever `r` takes off the front of its input is delimited -/
def Delimits {α : Type} (r : Reader α) : Prop :=
  ∀ bs x rest, r bs = .ok (x, rest) → ∃ front, bs = front ++ rest ∧ Delimited r x front

section
variable {α β : Type} {r : Reader α} {x : α} {front : List UInt8}

theorem delimited_nil {r : Reader α} (h : ∀ rest, r rest = .ok (x, rest)) : Delimited r x [] :=
  ⟨h, fun k hk => absurd hk (Nat.not_lt_zero k)⟩

theorem Delimited.bind {f : α → Reader β} {y : β} {front' : List UInt8} (hr : Delimited r x front)
    (hf : Delimited (f x) y front') :
    Delimited (fun bs => r bs >>= fun v => f v.1 v.2) y (front ++ front') where
  read rest := by
    show (r (front ++ front' ++ rest) >>= fun v => f v.1 v.2) = _
    rw [List.append_assoc, hr.read]
    exact hf.read rest
  cut k hk := by
    show (r ((front ++ front').take k) >>= fun v => f v.1 v.2) = _
    by_cases hin : k < front.length
    · rw [List.take_append_of_le_length (Nat.le_of_lt hin), hr.cut k hin]
      rfl
    · obtain ⟨l, rfl⟩ := Nat.exists_eq_add_of_le (Nat.not_lt.mp hin)
      rw [List.length_append] at hk
      rw [List.take_length_add_append, hr.read]
      exact hf.cut l (Nat.lt_of_add_lt_add_left hk)

theorem Delimits.bind {f : α → Reader β} (hr : Delimits r) (hf : ∀ x, Delimits (f x)) :
    Delimits fun bs => r bs >>= fun v => f v.1 v.2 := by
  intro bs y rest h
  obtain ⟨⟨x, mid⟩, hx, hy⟩ := bind_eq_ok_iff.mp h
  obtain ⟨front, rfl, hfront⟩ := hr _ _ _ hx
  obtain ⟨front', rfl, hfront'⟩ := hf x _ _ _ hy
  exact ⟨front ++ front', (List.append_assoc _ _ _).symm, hfront.bind hfront'⟩

theorem delimits_check {c : Prop} [Decidable c] (e : WireError) (x : α) :
    Delimits fun bs => if c then .error e else .ok (x, bs) := by
  intro bs y rest h
  split at h
  · cases h
  · next hc =>
    cases h
    exact ⟨[], rfl, delimited_nil fun _ => if_neg hc⟩

theorem delimits_pure (x : α) : Delimits fun bs => .ok (x, bs) := by
  intro bs y rest h
  cases h
  exact ⟨[], rfl, delimited_nil fun _ => rfl⟩

theorem Delimits.of_cons {f : UInt8 → Reader α} (hnil : r [] = .error .unexpectedEnd)
    (hcons : ∀ b bs, r (b :: bs) = f b bs) (hf : ∀ b, Delimits (f b)) : Delimits r := by
  intro bs x rest h
  cases bs with
  | nil => cases hnil.symm.trans h
  | cons b bs =>
    rw [hcons] at h
    obtain ⟨front, rfl, hfront⟩ := hf b _ _ _ h
    refine ⟨b :: front, rfl, ?_, ?_⟩
    · intro more
      rw [List.cons_append, hcons]
      exact hfront.read more
    · intro k hk
      cases k with
      | zero => exact hnil
      | succ k =>
        rw [List.take_succ_cons, hcons]
        exact hfront.cut k (Nat.lt_of_succ_lt_succ hk)

theorem Delimits.readMany (hr : Delimits r) (n : Nat) : Delimits (readMany r n) := by
  induction n with
  | zero => exact delimits_pure []
  | succ n ih =>
    have hstep : BlockProof.readMany r (n + 1) = fun bs => r bs >>= fun v =>
        BlockProof.readMany r n v.2 >>= fun w => .ok (v.1 :: w.1, w.2) := by
      funext bs
      exact readMany_succ r n bs
    rw [hstep]
    exact hr.bind fun x => ih.bind fun xs => delimits_pure (x :: xs)

end

/-! ## fields -/

theorem delimits_takeBytes (n : Nat) : Delimits (takeBytes n) := by
  intro bs front rest h
  obtain ⟨hlen, rfl⟩ := takeBytes_eq_ok_iff.mp h
  refine ⟨front, rfl, takeBytes_append hlen, ?_⟩
  intro k hk
  rw [takeBytes_eq_error_iff, List.length_take]
  exact ⟨by omega, rfl⟩

theorem delimits_readNat (w : Nat) : Delimits (readNat w) :=
  (delimits_takeBytes w).bind fun front => delimits_pure (ofLittleEndian front)

theorem delimits_readUInt32 : Delimits readUInt32 :=
  (delimits_readNat 4).bind fun n => delimits_pure (UInt32.ofNat n)

theorem delimits_readHash : Delimits readHash := by
  intro bs x rest h
  obtain ⟨-, rfl⟩ := (exact_readHash bs x rest).mp h
  refine ⟨x.bytes, rfl, fun more => (exact_readHash _ _ _).mpr ⟨trivial, rfl⟩, fun k hk => ?_⟩
  have hshort : takeBytes 32 (x.bytes.take k) = .error .unexpectedEnd := by
    rw [takeBytes_eq_error_iff, List.length_take]
    rw [x.length_bytes] at hk
    exact ⟨by omega, rfl⟩
  rw [readHash, hshort]
  rfl

theorem delimits_decodeBody (w least : Nat) : Delimits (CompactSize.decodeBody w least) :=
  (delimits_readNat w).bind fun n =>
    delimits_check (c := n < least) .nonMinimal (UInt64.ofNat n)

theorem delimits_decode : Delimits CompactSize.decode := by
  refine .of_cons (f := fun marker bs =>
    if marker < 0xfd then .ok (marker.toUInt64, bs)
    else if marker = 0xfd then CompactSize.decodeBody 2 0xfd bs
    else if marker = 0xfe then CompactSize.decodeBody 4 0x10000 bs
    else CompactSize.decodeBody 8 0x100000000 bs) rfl (fun _ _ => rfl) fun marker => ?_
  split
  · exact delimits_pure marker.toUInt64
  split
  · exact delimits_decodeBody 2 0xfd
  split
  · exact delimits_decodeBody 4 0x10000
  · exact delimits_decodeBody 8 0x100000000

theorem delimits_readCount (size : Nat) : Delimits (readCount size) :=
  delimits_decode.bind fun n =>
    let requested := min (n.toNat * size) (UInt64.size - 1)
    delimits_check (c := maxListBytes < requested) (.oversized requested) n.toNat

/-! ## messages -/

theorem delimits_readHeader : Delimits readHeader :=
  delimits_readUInt32.bind fun version =>
  delimits_readHash.bind fun prevBlock =>
  delimits_readHash.bind fun merkleRoot =>
  delimits_readUInt32.bind fun timestamp =>
  delimits_readUInt32.bind fun bits =>
  delimits_readUInt32.bind fun nonce =>
  delimits_pure (Header.mk version.toInt32 prevBlock merkleRoot timestamp bits nonce)

theorem delimits_readTree : Delimits readTree :=
  delimits_readUInt32.bind fun leafCount =>
  (delimits_readCount 32).bind fun count =>
  (delimits_readHash.readMany count).bind fun hashes =>
  (delimits_readCount 1).bind fun size =>
  (delimits_takeBytes size).bind fun flags =>
  delimits_pure (PartialTree.mk leafCount (unpackBits flags) hashes)

theorem delimits_readMerkleBlock : Delimits readMerkleBlock :=
  delimits_readHeader.bind fun header =>
  delimits_readTree.bind fun tree =>
  delimits_pure (MerkleBlock.mk header tree)

/-! ## telling the damage -/

/-- what `readAll` says of the beginnings of what it accepts, and of what it accepts grown -/
structure TellsDamage {α : Type} (r : Reader α) : Prop where
  /-- a cut, wherever it falls -/
  cut : ∀ bs x part, readAll r bs = .ok x → part <+: bs → part ≠ bs →
    readAll r part = .error .unexpectedEnd
  /-- bytes put after the end -/
  grown : ∀ bs x more, readAll r bs = .ok x → more ≠ [] →
    readAll r (bs ++ more) = .error (.trailingBytes more.length)
  /-- no accepted byte string is the beginning of another one -/
  prefix_free : ∀ bs x cs y, readAll r bs = .ok x → readAll r cs = .ok y → bs <+: cs → bs = cs

section
variable {α : Type} {r : Reader α} {bs : List UInt8} {x : α}

theorem Delimits.delimited_of_readAll (hr : Delimits r) (h : readAll r bs = .ok x) :
    Delimited r x bs := by
  obtain ⟨⟨y, rest⟩, hy, hrest⟩ := bind_eq_ok_iff.mp h
  obtain ⟨front, rfl, hfront⟩ := hr _ _ _ hy
  cases rest with
  | nil =>
    cases hrest
    rwa [List.append_nil]
  | cons b rest => cases hrest

theorem Delimited.readAll_cut (h : Delimited r x bs) {part : List UInt8} (hpart : part <+: bs)
    (hne : part ≠ bs) : readAll r part = .error .unexpectedEnd := by
  have hlt : part.length < bs.length :=
    Nat.lt_of_le_of_ne hpart.length_le fun heq => hne (hpart.eq_of_length heq)
  rw [List.prefix_iff_eq_take.mp hpart, readAll, h.cut _ hlt]
  rfl

theorem Delimited.readAll_grown (h : Delimited r x bs) {more : List UInt8} (hne : more ≠ []) :
    readAll r (bs ++ more) = .error (.trailingBytes more.length) := by
  rw [readAll, h.read]
  exact if_neg (mt List.isEmpty_iff.mp hne)

theorem Delimits.tellsDamage (hr : Delimits r) : TellsDamage r where
  cut _ _ _ h hpart hne := (hr.delimited_of_readAll h).readAll_cut hpart hne
  grown _ _ _ h hne := (hr.delimited_of_readAll h).readAll_grown hne
  prefix_free bs x cs y hbs hcs hpre := by
    by_contra hne
    have hcut := (hr.delimited_of_readAll hcs).readAll_cut hpre hne
    cases hbs.symm.trans hcut

end

/-- **Damage at the end of a merkle block or of a tree is told for what it is.** Of an accepted
message every proper beginning, the empty one too, is refused for its missing bytes, and the message
followed by `n` further bytes is refused for `n` trailing bytes, so that no accepted message is the
beginning of another. -/
theorem damage_at_the_end_is_told : TellsDamage readMerkleBlock ∧ TellsDamage readTree :=
  ⟨delimits_readMerkleBlock.tellsDamage, delimits_readTree.tellsDamage⟩

/-- a tree of one leaf, cut within its hash, and grown -/
example :
    let hash : Hash := .fill 7
    let bs : List UInt8 := [1, 0, 0, 0, 1] ++ hash.bytes ++ [1, 1]
    (readAll readTree bs).map (·.hashes) = .ok [hash] ∧
      readAll readTree (bs.take 20) = .error .unexpectedEnd ∧
        readAll readTree (bs ++ [0, 0]) = .error (.trailingBytes 2) := by
  decide +kernel

end BlockProof
