/-
# `BitswapAuth.Message.Marshal` — a message is written to a buffer

`Size` and `MarshalTo` of the five protobuf types.  The writer goes forward through
a buffer that its caller has made: an assignment out of range panics, and `copy`
stops without a word where the buffer ends.  What keeps it within the buffer is
that `Size` was asked before, so the two have to agree on every field.

`wire` is the string of bytes, field by field.  A buffer with room for `Size` bytes
ends up with `wire` in front and its own bytes after it (`Message.writes_put`), and
`wire` is `Size` bytes long.
-/
import BitswapAuth.Lib.Slice
import BitswapAuth.Lib.Varint
import BitswapAuth.Message.Wire

namespace BitswapAuth

open Lib

variable {E : Type}

/-! ## The fields -/

/-- The loop of `encodeVarintMessage`. -/
def encodeVarintRounds : (rounds : Nat) → UInt64 → Writer E UInt8 Unit
  | 0, _ => throw .spent
  | n + 1, v =>
      if 128 ≤ v then do
        put (v &&& 127 ||| 128).toUInt8
        encodeVarintRounds n (v >>> 7)
      else put v.toUInt8

/-- `encodeVarintMessage`.  After nine shifts nothing is left of a word. -/
def encodeVarintMessage (v : UInt64) : Writer E UInt8 Unit := encodeVarintRounds 10 v

/-- A tag, a length, and what has that length. -/
def putDelimited (tag : UInt8) (size : Nat) (body : Writer E UInt8 Unit) : Writer E UInt8 Unit := do
  put tag
  encodeVarintMessage (UInt64.ofNat size)
  body

/-- A tag and a slice of bytes. -/
def putBytes (tag : UInt8) (b : Bytes) : Writer E UInt8 Unit :=
  putDelimited tag b.length (copyIn b)

/-- A tag and a number. -/
def putVarint (tag : UInt8) (v : Nat) : Writer E UInt8 Unit := do
  put tag
  encodeVarintMessage (UInt64.ofNat v)

/-- A tag and a flag. -/
def putBool (tag : UInt8) (b : Bool) : Writer E UInt8 Unit := do
  put tag
  put (if b then 1 else 0)

/-- `uint64` of a `Message_BlockPresenceType`. -/
def BlockPresenceType.toPB : BlockPresenceType → Nat
  | .HAVE => 0
  | .DONT_HAVE => 1
  | .unknown n _ => uint64OfInt32 n

/-- `pb.Cid.MarshalTo`, which asks for the whole length. -/
def Cid.marshalTo (c : Cid) (data : Bytes) : Outcome E (Bytes × Nat) :=
  if c.str.length ≤ data.length then .ok (c.str ++ data.drop c.str.length, c.str.length)
  else .error .panic

namespace PB

/-! ## Sizes -/

/-- `Message_Wantlist_Entry.Size`. -/
def Entry.size (m : PB.Entry) : Nat :=
  sizeBytes m.block.str.length
    + (if m.priority ≠ 0 then 1 + sovMessage (uint64OfInt32 m.priority) else 0)
    + (if m.cancel then 2 else 0)
    + (if m.wantType.toPB ≠ 0 then 1 + sovMessage m.wantType.toPB else 0)
    + (if m.sendDontHave then 2 else 0)
    + sizeOptBytes m.auth.length

/-- `Message_Wantlist.Size`. -/
def Wantlist.size (m : PB.Wantlist) : Nat :=
  m.entries.foldl (fun n e => n + sizeBytes e.size) 0 + (if m.full then 2 else 0)

/-- `Message_Block.Size`. -/
def Block.size (m : PB.Block) : Nat :=
  sizeOptBytes m.cidPrefix.length + sizeOptBytes m.data.length + sizeOptBytes m.auth.length

/-- `Message_BlockPresence.Size`. -/
def BlockPresence.size (m : PB.BlockPresence) : Nat :=
  sizeBytes m.cid.str.length
    + (if m.type.toPB ≠ 0 then 1 + sovMessage m.type.toPB else 0)
    + sizeOptBytes m.auth.length

/-- `Message.Size`. -/
def Message.size (m : PB.Message) : Nat :=
  let n := sizeBytes m.wantlist.size
  let n := m.blocks.foldl (fun n b => n + sizeBytes b.length) n
  let n := m.payload.foldl (fun n e => n + sizeBytes e.size) n
  let n := m.blockPresences.foldl (fun n e => n + sizeBytes e.size) n
  n + (if m.pendingBytes ≠ 0 then 1 + sovMessage (uint64OfInt32 m.pendingBytes) else 0)

/-! ## Writing -/

/-- The body of `Message_Wantlist_Entry.MarshalTo`. -/
def Entry.put (m : PB.Entry) : Writer E UInt8 Unit := do
  putDelimited 0xa m.block.str.length (within m.block.marshalTo)
  when (m.priority ≠ 0) (putVarint 0x10 (uint64OfInt32 m.priority))
  when m.cancel (putBool 0x18 m.cancel)
  when (m.wantType.toPB ≠ 0) (putVarint 0x20 m.wantType.toPB)
  when m.sendDontHave (putBool 0x28 m.sendDontHave)
  when (m.auth.length > 0) (putBytes 0x32 m.auth)

/-- `Message_Wantlist_Entry.MarshalTo`. -/
def Entry.marshalTo (m : PB.Entry) (dAtA : Bytes) : Outcome E (Bytes × Nat) :=
  Writer.fill m.put dAtA

/-- The body of `Message_Wantlist.MarshalTo`. -/
def Wantlist.put (m : PB.Wantlist) : Writer E UInt8 Unit := do
  m.entries.forM fun msg => putDelimited 0xa msg.size (within msg.marshalTo)
  when m.full (putBool 0x10 m.full)

/-- `Message_Wantlist.MarshalTo`. -/
def Wantlist.marshalTo (m : PB.Wantlist) (dAtA : Bytes) : Outcome E (Bytes × Nat) :=
  Writer.fill m.put dAtA

/-- The body of `Message_Block.MarshalTo`. -/
def Block.put (m : PB.Block) : Writer E UInt8 Unit := do
  when (m.cidPrefix.length > 0) (putBytes 0xa m.cidPrefix)
  when (m.data.length > 0) (putBytes 0x12 m.data)
  when (m.auth.length > 0) (putBytes 0x1a m.auth)

/-- `Message_Block.MarshalTo`. -/
def Block.marshalTo (m : PB.Block) (dAtA : Bytes) : Outcome E (Bytes × Nat) :=
  Writer.fill m.put dAtA

/-- The body of `Message_BlockPresence.MarshalTo`. -/
def BlockPresence.put (m : PB.BlockPresence) : Writer E UInt8 Unit := do
  putDelimited 0xa m.cid.str.length (within m.cid.marshalTo)
  when (m.type.toPB ≠ 0) (putVarint 0x10 m.type.toPB)
  when (m.auth.length > 0) (putBytes 0x1a m.auth)

/-- `Message_BlockPresence.MarshalTo`. -/
def BlockPresence.marshalTo (m : PB.BlockPresence) (dAtA : Bytes) : Outcome E (Bytes × Nat) :=
  Writer.fill m.put dAtA

/-- The body of `Message.MarshalTo`. -/
def Message.put (m : PB.Message) : Writer E UInt8 Unit := do
  putDelimited 0xa m.wantlist.size (within m.wantlist.marshalTo)
  m.blocks.forM fun b => putBytes 0x12 b
  m.payload.forM fun msg => putDelimited 0x1a msg.size (within msg.marshalTo)
  m.blockPresences.forM fun msg => putDelimited 0x22 msg.size (within msg.marshalTo)
  when (m.pendingBytes ≠ 0) (putVarint 0x28 (uint64OfInt32 m.pendingBytes))

/-- `Message.MarshalTo`. -/
def Message.marshalTo (m : PB.Message) (dAtA : Bytes) : Outcome E (Bytes × Nat) :=
  Writer.fill m.put dAtA

/-- `Message.Marshal`: a buffer of `Size` bytes, and as much of it as was written. -/
def Message.marshal (m : PB.Message) : Outcome E Bytes := do
  let (dAtA, n) ← m.marshalTo (List.replicate m.size 0)
  slice dAtA 0 n

end PB

/-! ## The bytes that are written -/

/-- A slice of bytes on the wire. -/
def bytesField (tag : UInt8) (b : Bytes) : Bytes := [tag] ++ (Varint.encode b.length ++ b)

/-- A number on the wire. -/
def varintField (tag : UInt8) (v : Nat) : Bytes := [tag] ++ Varint.encode v

/-- A flag that is set, on the wire. -/
def boolField (tag : UInt8) : Bytes := [tag] ++ [1]

namespace PB

/-- An entry of a wantlist on the wire. -/
def Entry.wire (m : PB.Entry) : Bytes :=
  bytesField 0xa m.block.str
    ++ ((if m.priority ≠ 0 then varintField 0x10 (uint64OfInt32 m.priority) else [])
    ++ ((if m.cancel then boolField 0x18 else [])
    ++ ((if m.wantType.toPB ≠ 0 then varintField 0x20 m.wantType.toPB else [])
    ++ ((if m.sendDontHave then boolField 0x28 else [])
    ++ (if m.auth.length > 0 then bytesField 0x32 m.auth else [])))))

/-- A wantlist on the wire. -/
def Wantlist.wire (m : PB.Wantlist) : Bytes :=
  (m.entries.flatMap fun e => bytesField 0xa e.wire) ++ (if m.full then boolField 0x10 else [])

/-- A block on the wire. -/
def Block.wire (m : PB.Block) : Bytes :=
  (if m.cidPrefix.length > 0 then bytesField 0xa m.cidPrefix else [])
    ++ ((if m.data.length > 0 then bytesField 0x12 m.data else [])
    ++ (if m.auth.length > 0 then bytesField 0x1a m.auth else []))

/-- A block presence on the wire. -/
def BlockPresence.wire (m : PB.BlockPresence) : Bytes :=
  bytesField 0xa m.cid.str
    ++ ((if m.type.toPB ≠ 0 then varintField 0x10 m.type.toPB else [])
    ++ (if m.auth.length > 0 then bytesField 0x1a m.auth else []))

/-- A message on the wire. -/
def Message.wire (m : PB.Message) : Bytes :=
  bytesField 0xa m.wantlist.wire
    ++ ((m.blocks.flatMap fun b => bytesField 0x12 b)
    ++ ((m.payload.flatMap fun e => bytesField 0x1a e.wire)
    ++ ((m.blockPresences.flatMap fun e => bytesField 0x22 e.wire)
    ++ (if m.pendingBytes ≠ 0 then varintField 0x28 (uint64OfInt32 m.pendingBytes) else []))))

end PB

/-! ## Their number is the size -/

theorem length_encode_eq (v : Nat) : (Varint.encode v).length = sovMessage v :=
  Varint.length_encode v

@[simp]
theorem length_bytesField (tag : UInt8) (b : Bytes) :
    (bytesField tag b).length = sizeBytes b.length := by
  simp only [bytesField, sizeBytes, List.length_append, List.length_singleton, length_encode_eq]
  omega

@[simp]
theorem length_varintField (tag : UInt8) (v : Nat) :
    (varintField tag v).length = 1 + sovMessage v := by
  simp only [varintField, List.length_append, List.length_singleton, length_encode_eq]

@[simp]
theorem length_boolField (tag : UInt8) : (boolField tag).length = 2 := rfl

theorem length_ite {c : Prop} [Decidable c] (a : Bytes) :
    (if c then a else []).length = if c then a.length else 0 := by
  split <;> rfl

theorem foldl_size {X : Type} {f : X → Bytes} {g : X → Nat} (h : ∀ x, (f x).length = g x)
    (l : List X) (n : Nat) : l.foldl (fun n x => n + g x) n = n + (l.flatMap f).length := by
  induction l generalizing n with
  | nil => rfl
  | cons x l ih =>
      rw [List.foldl_cons, ih, List.flatMap_cons, List.length_append, h]
      omega

namespace PB

@[simp]
theorem Entry.length_wire (m : PB.Entry) : m.wire.length = m.size := by
  simp only [wire, size, List.length_append, length_ite, length_bytesField, length_varintField,
    length_boolField, sizeOptBytes]
  omega

@[simp]
theorem Wantlist.length_wire (m : PB.Wantlist) : m.wire.length = m.size := by
  have hentries := foldl_size (f := fun e : PB.Entry => bytesField 0xa e.wire)
    (g := fun e => sizeBytes e.size) (fun e => by simp) m.entries 0
  rw [size, hentries, Nat.zero_add, wire, List.length_append, length_ite, length_boolField]

@[simp]
theorem Block.length_wire (m : PB.Block) : m.wire.length = m.size := by
  simp only [wire, size, List.length_append, length_ite, length_bytesField, sizeOptBytes]
  omega

@[simp]
theorem BlockPresence.length_wire (m : PB.BlockPresence) : m.wire.length = m.size := by
  simp only [wire, size, List.length_append, length_ite, length_bytesField, length_varintField,
    sizeOptBytes]
  omega

@[simp]
theorem Message.length_wire (m : PB.Message) : m.wire.length = m.size := by
  have hblocks := foldl_size (f := fun b : Bytes => bytesField 0x12 b)
    (g := fun b => sizeBytes b.length) (fun b => by simp) m.blocks
  have hpayload := foldl_size (f := fun e : PB.Block => bytesField 0x1a e.wire)
    (g := fun e => sizeBytes e.size) (fun e => by simp) m.payload
  have hpresences := foldl_size (f := fun e : PB.BlockPresence => bytesField 0x22 e.wire)
    (g := fun e => sizeBytes e.size) (fun e => by simp) m.blockPresences
  simp only [wire, size, List.length_append, length_ite, length_bytesField, length_varintField,
    hblocks, hpayload, hpresences, Wantlist.length_wire]
  omega

end PB

/-! ## The writer writes them -/

theorem toUInt8_low (v : UInt64) :
    (v &&& 127 ||| 128).toUInt8 = UInt8.ofNat (v.toNat % 128 + 128) := by
  refine UInt8.toNat_inj.mp ?_
  have hand : v.toNat &&& 127 = v.toNat % 128 := Nat.and_two_pow_sub_one_eq_mod v.toNat 7
  have hor : v.toNat % 128 ||| 128 = v.toNat % 128 + 128 := by
    have := Nat.two_pow_add_eq_or_of_lt (i := 7) (Nat.mod_lt v.toNat (by decide)) 1
    rw [Nat.or_comm, Nat.add_comm]
    exact this.symm
  rw [UInt64.toNat_toUInt8, UInt64.toNat_or, UInt64.toNat_and, UInt8.toNat_ofNat']
  show (v.toNat &&& 127 ||| 128) % 256 = _
  rw [hand, hor]

theorem toNat_shiftRight_seven (v : UInt64) : (v >>> 7).toNat = v.toNat / 128 := by
  rw [UInt64.toNat_shiftRight]
  exact Nat.shiftRight_eq_div_pow v.toNat 7

/-- The loop has rounds enough for a number of that many digits. -/
theorem writes_encodeVarintRounds : ∀ (n : Nat) (v : UInt64), 0 < n → v.toNat < 128 ^ n →
    Writes (encodeVarintRounds n v : Writer E UInt8 Unit) (Varint.encode v.toNat)
  | 0, _, hn, _ => absurd hn (Nat.lt_irrefl 0)
  | n + 1, v, _, hv => by
      rw [encodeVarintRounds]
      by_cases h : 128 ≤ v
      · have hge : 128 ≤ v.toNat := UInt64.le_iff_toNat_le.mp h
        have hdiv : (v >>> 7).toNat < 128 ^ n := by
          rw [toNat_shiftRight_seven]
          rw [Nat.pow_succ] at hv
          exact Nat.div_lt_of_lt_mul (by rwa [Nat.mul_comm])
        have hn : 0 < n := by
          rcases Nat.eq_zero_or_pos n with rfl | hpos
          · exact absurd hv (by simpa using hge)
          · exact hpos
        have hrest := writes_encodeVarintRounds n (v >>> 7) hn hdiv
        rw [toNat_shiftRight_seven] at hrest
        rw [if_pos h, toUInt8_low, Varint.encode_large (Nat.not_lt.mpr hge)]
        exact writes_bind (writes_put _) hrest
      · have hlt : v.toNat < 128 := by
          refine Nat.lt_of_not_le fun hge => h (UInt64.le_iff_toNat_le.mpr hge)
        rw [if_neg h, Varint.encode_small hlt]
        exact writes_put _

theorem writes_encodeVarintMessage {v : Nat} (hv : v < 18446744073709551616) :
    Writes (encodeVarintMessage (UInt64.ofNat v) : Writer E UInt8 Unit) (Varint.encode v) := by
  have hnat : (UInt64.ofNat v).toNat = v := UInt64.toNat_ofNat_of_lt' hv
  have := writes_encodeVarintRounds (E := E) 10 (UInt64.ofNat v) (by decide) (by rw [hnat]; omega)
  rwa [hnat] at this

theorem writes_putDelimited {tag : UInt8} {n : Nat} {body : Writer E UInt8 Unit} {b : Bytes}
    (hbody : Writes body b) (hn : b.length = n) (hlt : n < 18446744073709551616) :
    Writes (putDelimited tag n body) (bytesField tag b) := by
  subst hn
  exact writes_bind (writes_put tag) (writes_bind (writes_encodeVarintMessage hlt) hbody)

theorem writes_putBytes {tag : UInt8} {b : Bytes} (hlt : b.length < 18446744073709551616) :
    Writes (putBytes tag b : Writer E UInt8 Unit) (bytesField tag b) :=
  writes_putDelimited (writes_copyIn b) rfl hlt

theorem writes_putVarint {tag : UInt8} {v : Nat} (hlt : v < 18446744073709551616) :
    Writes (putVarint tag v : Writer E UInt8 Unit) (varintField tag v) :=
  writes_bind (writes_put tag) (writes_encodeVarintMessage hlt)

/-- A flag is written only when it is set. -/
theorem writes_putBool {tag : UInt8} {b : Bool} (hb : b = true) :
    Writes (putBool tag b : Writer E UInt8 Unit) (boolField tag) := by
  subst hb
  exact writes_bind (writes_put tag) (writes_put 1)

theorem uint64OfInt32_lt (p : Int32) : uint64OfInt32 p < 18446744073709551616 :=
  (BitVec.ofInt 64 p.toInt).isLt

theorem WantType.toPB_lt (t : WantType) : t.toPB < 18446744073709551616 := by
  cases t with
  | wantBlock => decide
  | wantHave => decide
  | unknown n h => exact uint64OfInt32_lt n

theorem BlockPresenceType.toPB_lt (t : BlockPresenceType) : t.toPB < 18446744073709551616 := by
  cases t with
  | HAVE => decide
  | DONT_HAVE => decide
  | unknown n h => exact uint64OfInt32_lt n

theorem writes_cid {tag : UInt8} {c : Cid} (hlt : c.str.length < 18446744073709551616) :
    Writes (putDelimited tag c.str.length (within c.marshalTo) : Writer E UInt8 Unit)
      (bytesField tag c.str) := by
  refine writes_putDelimited (writes_within fun d hd => ?_) rfl hlt
  rw [Cid.marshalTo, if_pos hd]

/-- A message within a message. -/
theorem writes_nested {tag : UInt8} {n : Nat} {f : Writer E UInt8 Unit} {b : Bytes}
    (hf : Writes f b) (hn : b.length = n) (hlt : n < 18446744073709551616) :
    Writes (putDelimited tag n (within f.fill)) (bytesField tag b) :=
  writes_putDelimited (writes_within fun _ hd => hf.fill hd) hn hlt

theorem length_le_flatMap {X : Type} {f : X → Bytes} {l : List X} {x : X} (h : x ∈ l) :
    (f x).length ≤ (l.flatMap f).length := by
  obtain ⟨l₁, l₂, rfl⟩ := List.append_of_mem h
  simp only [List.flatMap_append, List.flatMap_cons, List.length_append]
  omega

theorem le_sizeBytes (l : Nat) : l ≤ sizeBytes l := by
  rw [sizeBytes]
  omega

theorem le_sizeOptBytes (l : Nat) : l ≤ sizeOptBytes l := by
  rw [sizeOptBytes]
  split
  · exact le_sizeBytes l
  · omega

/-- An element of a repeated field is no longer than the message. -/
theorem le_of_mem_repeated {X : Type} (tag : UInt8) {f : X → Bytes} {l : List X} {x : X}
    (h : x ∈ l) : (f x).length ≤ (l.flatMap fun y => bytesField tag (f y)).length := by
  refine Nat.le_trans (le_sizeBytes _) ?_
  rw [← length_bytesField tag]
  exact length_le_flatMap (f := fun y => bytesField tag (f y)) h

namespace PB

theorem Entry.writes_put {m : PB.Entry} (h : m.size < 18446744073709551616) :
    Writes (m.put : Writer E UInt8 Unit) m.wire := by
  have hcid := le_sizeBytes m.block.str.length
  have hauth := le_sizeOptBytes m.auth.length
  rw [size] at h
  exact writes_bind (writes_cid (by omega))
    (writes_bind (writes_when fun _ => writes_putVarint (uint64OfInt32_lt _))
    (writes_bind (writes_when fun hc => writes_putBool hc)
    (writes_bind (writes_when fun _ => writes_putVarint m.wantType.toPB_lt)
    (writes_bind (writes_when fun hc => writes_putBool hc)
    (writes_when fun _ => writes_putBytes (by omega))))))

theorem Wantlist.writes_put {m : PB.Wantlist} (h : m.size < 18446744073709551616) :
    Writes (m.put : Writer E UInt8 Unit) m.wire := by
  have hentry : ∀ e ∈ m.entries, e.size < 18446744073709551616 := by
    intro e he
    have hle := le_of_mem_repeated 0xa (f := Entry.wire) he
    rw [← length_wire, wire, List.length_append] at h
    rw [Entry.length_wire] at hle
    omega
  exact writes_bind
    (writes_forM fun e he => writes_nested (e.writes_put (hentry e he)) e.length_wire (hentry e he))
    (writes_when fun hc => writes_putBool hc)

theorem Block.writes_put {m : PB.Block} (h : m.size < 18446744073709551616) :
    Writes (m.put : Writer E UInt8 Unit) m.wire := by
  have hpref := le_sizeOptBytes m.cidPrefix.length
  have hdata := le_sizeOptBytes m.data.length
  have hauth := le_sizeOptBytes m.auth.length
  rw [size] at h
  exact writes_bind (writes_when fun _ => writes_putBytes (by omega))
    (writes_bind (writes_when fun _ => writes_putBytes (by omega))
    (writes_when fun _ => writes_putBytes (by omega)))

theorem BlockPresence.writes_put {m : PB.BlockPresence} (h : m.size < 18446744073709551616) :
    Writes (m.put : Writer E UInt8 Unit) m.wire := by
  have hcid := le_sizeBytes m.cid.str.length
  have hauth := le_sizeOptBytes m.auth.length
  rw [size] at h
  exact writes_bind (writes_cid (by omega))
    (writes_bind (writes_when fun _ => writes_putVarint m.type.toPB_lt)
    (writes_when fun _ => writes_putBytes (by omega)))

/-- The parts of a message are no longer than the message. -/
theorem Message.parts_le (m : PB.Message) :
    m.wantlist.size ≤ m.size ∧ (∀ b ∈ m.blocks, b.length ≤ m.size) ∧
      (∀ e ∈ m.payload, e.size ≤ m.size) ∧ ∀ e ∈ m.blockPresences, e.size ≤ m.size := by
  have hsize := m.length_wire
  simp only [wire, List.length_append] at hsize
  refine ⟨?_, fun b hb => ?_, fun e he => ?_, fun e he => ?_⟩
  · have hle := le_sizeBytes m.wantlist.size
    rw [length_bytesField, Wantlist.length_wire] at hsize
    omega
  · have hle := le_of_mem_repeated 0x12 (f := id) hb
    simp only [id] at hle
    omega
  · have hle := le_of_mem_repeated 0x1a (f := Block.wire) he
    rw [Block.length_wire] at hle
    omega
  · have hle := le_of_mem_repeated 0x22 (f := BlockPresence.wire) he
    rw [BlockPresence.length_wire] at hle
    omega

theorem Message.writes_put {m : PB.Message} (h : m.size < 18446744073709551616) :
    Writes (m.put : Writer E UInt8 Unit) m.wire := by
  obtain ⟨hwl, hblocks, hpayload, hpresences⟩ := m.parts_le
  have hwl' : m.wantlist.size < 18446744073709551616 := Nat.lt_of_le_of_lt hwl h
  refine writes_bind (writes_nested (Wantlist.writes_put hwl') m.wantlist.length_wire hwl') ?_
  refine writes_bind (writes_forM fun b hb => ?_) ?_
  · exact writes_putBytes (Nat.lt_of_le_of_lt (hblocks b hb) h)
  refine writes_bind (writes_forM fun e he => ?_) ?_
  · have hlt := Nat.lt_of_le_of_lt (hpayload e he) h
    exact writes_nested (Block.writes_put hlt) e.length_wire hlt
  refine writes_bind (writes_forM fun e he => ?_) ?_
  · have hlt := Nat.lt_of_le_of_lt (hpresences e he) h
    exact writes_nested (BlockPresence.writes_put hlt) e.length_wire hlt
  exact writes_when fun _ => writes_putVarint (uint64OfInt32_lt _)

/-- `Marshal` returns the bytes of the message. -/
theorem Message.marshal_eq {m : PB.Message} (h : m.size < 18446744073709551616) :
    (m.marshal : Outcome E Bytes) = .ok m.wire := by
  have hfill := (Message.writes_put (E := E) h).fill (d := List.replicate m.size 0) (by simp)
  rw [marshal, marshalTo, hfill]
  show slice (m.wire ++ _) 0 m.wire.length = _
  rw [slice_of_le (Nat.zero_le _) (by simp), List.take_left, List.drop_zero]

/-- **`MarshalTo` stays within `Size`**: there is one string of `Size` bytes that it writes to
the front of every buffer with room for it; the rest of the buffer is left alone, and
`Size` is what it returns. -/
theorem Message.marshalTo_fills (E : Type) (m : PB.Message) (h : m.size < 9223372036854775808) :
    ∃ bytes : Bytes, bytes.length = m.size ∧ ∀ dAtA : Bytes, m.size ≤ dAtA.length →
      (m.marshalTo dAtA : Outcome E (Bytes × Nat)) = .ok (bytes ++ dAtA.drop m.size, m.size) := by
  refine ⟨m.wire, m.length_wire, fun dAtA hroom => ?_⟩
  have hfill := (Message.writes_put (E := E) (m := m) (by omega)).fill (d := dAtA)
    (by rwa [length_wire])
  rwa [length_wire] at hfill

/-- A message with something of each kind. -/
def Message.sample : PB.Message where
  wantlist := ⟨[⟨⟨[1, 85, 7]⟩, -1, false, .wantHave, true, [171]⟩], true⟩
  blocks := [[9]]
  payload := [⟨[1, 85], [8, 8], []⟩]
  blockPresences := [⟨⟨[1, 85, 9]⟩, .DONT_HAVE, [15]⟩]
  pendingBytes := 300

theorem Message.marshalTo_fills_sample :
    ∃ bytes : Bytes, bytes.length = Message.sample.size ∧ ∀ dAtA : Bytes,
      Message.sample.size ≤ dAtA.length → (Message.sample.marshalTo dAtA :
        Outcome Unit (Bytes × Nat)) = .ok (bytes ++ dAtA.drop Message.sample.size,
          Message.sample.size) :=
  Message.marshalTo_fills Unit Message.sample (by decide)

end PB

end BitswapAuth
