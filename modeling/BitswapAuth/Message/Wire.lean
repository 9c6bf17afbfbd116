/-
# `BitswapAuth.Message.Wire` — messages and their protobuf form

`ToProtoV0`, `ToProtoV1` and `newMessageFromProto`.  A wantlist entry, a block and
a block presence each carry their auth string as bytes on the wire: it is decoded
from hexadecimal on the way out, with the error dropped, and encoded to
hexadecimal on the way in.  A block travels as its data and the prefix of its CID, and its
CID is computed again on arrival.

`OnWire` says of a message what the trip needs: CIDs that are defined, blocks
that hash to their CIDs, no presence for a want that has its block.  Building a
message keeps it and decoding one establishes it, so both round trips come from
one lemma (`same_of_onWire`).  What building does not give is that the auth
strings are hexadecimal in lower case, and that decides the first round trip.

Of the libraries for CIDs and blocks only what is used is here, as a parameter.
-/
import BitswapAuth.Message
import BitswapAuth.Lib.Run

namespace BitswapAuth

open Lib

/-! ## Hexadecimal -/

/-- A digit of the table the encoder has. -/
def hexDigit (n : UInt8) : UInt8 := if n < 10 then 48 + n else 87 + n

/-- `hex.EncodeToString`. -/
def hexEncodeToString : Bytes → Bytes
  | [] => []
  | b :: bs => hexDigit (b >>> 4) :: hexDigit (b &&& 15) :: hexEncodeToString bs

/-- The character is a hexadecimal digit in lower case. -/
def IsLowerHexDigit (c : UInt8) : Prop := (48 ≤ c ∧ c ≤ 57) ∨ (97 ≤ c ∧ c ≤ 102)

instance (c : UInt8) : Decidable (IsLowerHexDigit c) := inferInstanceAs (Decidable (_ ∨ _))

/-- The string is hexadecimal in lower case, with two digits a byte. -/
def LowerHex : Bytes → Prop
  | [] => True
  | [_] => False
  | c :: d :: rest => IsLowerHexDigit c ∧ IsLowerHexDigit d ∧ LowerHex rest

instance decidableLowerHex : (a : Bytes) → Decidable (LowerHex a)
  | [] => .isTrue trivial
  | [_] => .isFalse id
  | c :: d :: rest =>
      have := decidableLowerHex rest
      inferInstanceAs (Decidable (IsLowerHexDigit c ∧ IsLowerHexDigit d ∧ LowerHex rest))

/-- A property of bytes, from its 256 cases. -/
theorem forall_uint8 {P : UInt8 → Prop} (h : ∀ n : Fin 256, P (UInt8.ofNat n)) (b : UInt8) :
    P b := by
  have hb := h ⟨b.toNat, b.toNat_lt⟩
  rwa [UInt8.ofNat_toNat] at hb

theorem isLowerHexDigit_hexDigit : ∀ b : UInt8,
    IsLowerHexDigit (hexDigit (b >>> 4)) ∧ IsLowerHexDigit (hexDigit (b &&& 15)) :=
  forall_uint8 (by decide +kernel)

theorem fromHexChar_of_isLowerHexDigit : ∀ c : UInt8, IsLowerHexDigit c →
    ∃ n : Fin 16, fromHexChar c = some (UInt8.ofNat n) ∧ hexDigit (UInt8.ofNat n) = c :=
  forall_uint8 (by decide +kernel)

theorem nibbles : ∀ m n : Fin 16,
    (UInt8.ofNat m * 16 + UInt8.ofNat n) >>> 4 = UInt8.ofNat m ∧
      (UInt8.ofNat m * 16 + UInt8.ofNat n) &&& 15 = UInt8.ofNat n := by
  decide +kernel

theorem lowerHex_hexEncodeToString : ∀ bs : Bytes, LowerHex (hexEncodeToString bs)
  | [] => trivial
  | b :: bs => ⟨(isLowerHexDigit_hexDigit b).1, (isLowerHexDigit_hexDigit b).2,
      lowerHex_hexEncodeToString bs⟩

/-- Decoding and encoding gives back a string of digits in lower case. -/
theorem hexEncodeToString_hexDecodeString : ∀ {a : Bytes}, LowerHex a →
    hexEncodeToString (hexDecodeString a) = a
  | [], _ => rfl
  | [_], h => h.elim
  | c :: d :: rest, ⟨hc, hd, h⟩ => by
      obtain ⟨m, hm, hmc⟩ := fromHexChar_of_isLowerHexDigit c hc
      obtain ⟨n, hn, hnd⟩ := fromHexChar_of_isLowerHexDigit d hd
      obtain ⟨h₁, h₂⟩ := nibbles m n
      rw [hexDecodeString, hm, hn]
      show hexDigit _ :: hexDigit _ :: hexEncodeToString (hexDecodeString rest) = _
      rw [h₁, h₂, hmc, hnd, hexEncodeToString_hexDecodeString h]

/-! ## The protobuf form -/

/-- `pb.Message_Wantlist_Entry`. -/
structure PB.Entry where
  block : Cid
  priority : Int32
  cancel : Bool
  wantType : WantType
  sendDontHave : Bool
  auth : Bytes

/-- `pb.Message_Wantlist`. -/
structure PB.Wantlist where
  entries : List PB.Entry
  full : Bool

/-- `pb.Message_Block`. -/
structure PB.Block where
  cidPrefix : Bytes
  data : Bytes
  auth : Bytes

/-- `pb.Message_BlockPresence`. -/
structure PB.BlockPresence where
  cid : Cid
  type : BlockPresenceType
  auth : Bytes

/-- `pb.Message`. -/
structure PB.Message where
  wantlist : PB.Wantlist
  blocks : List Bytes
  payload : List PB.Block
  blockPresences : List PB.BlockPresence
  pendingBytes : Int32

/-- The libraries for CIDs and blocks, and what is assumed of the blocks they make. -/
structure CidLib where
  /-- `cid.Prefix`. -/
  Prefix : Type
  /-- Their errors. -/
  Err : Type
  /-- `cid.PrefixFromBytes`. -/
  prefixFromBytes : Bytes → Except Err Prefix
  /-- `Prefix.Bytes`. -/
  bytes : Prefix → Bytes
  /-- `Prefix.Sum`. -/
  sum : Prefix → Bytes → Except Err Cid
  /-- `Cid.Prefix`. -/
  prefixOf : Cid → Prefix
  /-- `blocks.NewBlock`. -/
  newBlock : Bytes → Block
  /-- `blocks.NewBlockWithCid`. -/
  newBlockWithCid : Bytes → Cid → Except Err Block
  rawData_newBlock : ∀ data, (newBlock data).rawData = data
  newBlockWithCid_eq_ok : ∀ {data c b}, newBlockWithCid data c = .ok b → b = ⟨c, data⟩
  /-- The CID may be checked, and is then right if it is that of the data. -/
  newBlockWithCid_of_sum : ∀ {data c}, sum (prefixOf c) data = .ok c →
    newBlockWithCid data c = .ok ⟨c, data⟩

/-- The errors of `newMessageFromProto`. -/
inductive FromProtoErr (E : Type) where
  | errCidMissing
  | lib (e : E)

/-- An error of the libraries is returned as it is. -/
def liftErr {E α : Type} : Except E α → Except (FromProtoErr E) α
  | .ok a => .ok a
  | .error e => .error (.lib e)

namespace CidLib

variable (lib : CidLib)

/-- The CID that `NewBlock` gives to data. -/
def newBlockCid (data : Bytes) : Cid := (lib.newBlock data).cid

/-- The CID of the block is computed again from its prefix and the data. -/
def Rebuilds (b : Block) : Prop :=
  lib.prefixFromBytes (lib.bytes (lib.prefixOf b.cid)) = .ok (lib.prefixOf b.cid) ∧
    lib.sum (lib.prefixOf b.cid) b.rawData = .ok b.cid

/-- What is assumed of the libraries: the prefix of a CID that was computed from data
survives its byte form and computes the CID again, and `NewBlock` computes its
CIDs with a prefix, too. -/
structure Lawful : Prop where
  sums : ∀ p d c, lib.sum p d = .ok c → lib.Rebuilds ⟨c, d⟩
  newBlock : ∀ d, ∃ p, lib.sum p d = .ok (lib.newBlockCid d)

variable {lib}

theorem newBlock_eq (data : Bytes) : lib.newBlock data = ⟨lib.newBlockCid data, data⟩ :=
  congrArg (Block.mk _) (lib.rawData_newBlock data)

end CidLib

namespace Message

/-- `Entry.ToPB`. -/
def Entry.toPB (e : Entry) : PB.Entry :=
  { block := e.want.cid
    auth := hexDecodeString e.want.auth
    priority := e.priority
    cancel := e.cancel
    wantType := e.wantType
    sendDontHave := e.sendDontHave }

/-- A block in the payload: its data is looked up under the key. -/
def blockToPB (lib : CidLib) (m : Message) (e : Want × AuthBlock) : PB.Block :=
  { data := (m.rawData.lookup e.1).getD []
    cidPrefix := lib.bytes (lib.prefixOf e.2.block.cid)
    auth := hexDecodeString e.2.want.auth }

/-- A block presence. -/
def presenceToPB (e : Want × BlockPresenceType) : PB.BlockPresence :=
  { cid := e.1.cid, auth := hexDecodeString e.1.auth, type := e.2 }

/-- The orders of the three ranges of an encoding. -/
structure WireOrders where
  entries : RangeOrder
  blocks : RangeOrder
  presences : RangeOrder

/-- `impl.ToProtoV0`: of a block only the data, of the presences and the pending bytes
nothing. -/
def toProtoV0 (m : Message) (o : WireOrders) : PB.Message :=
  { wantlist :=
      { entries := (o.entries.range m.wantlist.values).map Entry.toPB
        full := m.full }
    blocks := (o.blocks.range m.blocks.pairs).map fun e => (m.rawData.lookup e.1).getD []
    payload := []
    blockPresences := []
    pendingBytes := 0 }

/-- `impl.ToProtoV1`. -/
def toProtoV1 (lib : CidLib) (m : Message) (o : WireOrders) : PB.Message :=
  { wantlist :=
      { entries := (o.entries.range m.wantlist.values).map Entry.toPB
        full := m.full }
    blocks := []
    payload := (o.blocks.range m.blocks.pairs).map (m.blockToPB lib)
    blockPresences := (o.presences.range m.blockPresences.pairs).map presenceToPB
    pendingBytes := m.pendingBytes }

section

variable (lib : CidLib)

/-- One entry of the wantlist that was received. -/
def fromEntry (m : Message) (e : PB.Entry) : Except (FromProtoErr lib.Err) Message :=
  if e.block.defined then
    .ok (m.addEntry' ⟨e.block, hexEncodeToString e.auth⟩ e.priority e.cancel e.wantType
      e.sendDontHave).1
  else .error .errCidMissing

/-- One block of the payload that was received. -/
def fromPayload (m : Message) (b : PB.Block) : Except (FromProtoErr lib.Err) Message := do
  let pref ← liftErr (lib.prefixFromBytes b.cidPrefix)
  let c ← liftErr (lib.sum pref b.data)
  let blk ← liftErr (lib.newBlockWithCid b.data c)
  return m.addBlock blk (hexEncodeToString b.auth)

/-- One block presence that was received. -/
def fromPresence (m : Message) (bi : PB.BlockPresence) : Except (FromProtoErr lib.Err) Message :=
  if bi.cid.defined then
    .ok (m.addBlockPresence ⟨bi.cid, hexEncodeToString bi.auth⟩ bi.type)
  else .error .errCidMissing

/-- `newMessageFromProto`. -/
def newMessageFromProto (pbm : PB.Message) : Except (FromProtoErr lib.Err) Message := do
  let m ← pbm.wantlist.entries.foldlM (fromEntry lib) (new pbm.wantlist.full)
  -- deprecated: CIDv0, sha256, protobuf only
  let m := pbm.blocks.foldl (fun m d => m.addBlock (lib.newBlock d) []) m
  let m ← pbm.payload.foldlM (fromPayload lib) m
  let m ← pbm.blockPresences.foldlM (fromPresence lib) m
  return m.setPendingBytes pbm.pendingBytes

end

/-! ## Messages fit for the wire -/

/-- The messages agree on the full flag, the three tables and the pending bytes. -/
structure Same (m m' : Message) : Prop where
  full : m.full = m'.full
  wantlist : ∀ w, m.wantlist.lookup w = m'.wantlist.lookup w
  blocks : ∀ w, m.blocks.lookup w = m'.blocks.lookup w
  blockPresences : ∀ w, m.blockPresences.lookup w = m'.blockPresences.lookup w
  pendingBytes : m.pendingBytes = m'.pendingBytes

/-- The wants of the three tables. -/
def names (m : Message) : List Want :=
  m.wantlist.keys ++ (m.blocks.keys ++ m.blockPresences.keys)

theorem mem_names {m : Message} {w : Want} :
    w ∈ m.names ↔ w ∈ m.wantlist ∨ w ∈ m.blocks ∨ w ∈ m.blockPresences := by
  simp only [names, List.mem_append, AList.mem_keys]

/-- The CIDs are defined, each block is kept under its CID and an auth string, no
want has both a block and a presence, and the auth strings and the blocks are of
a kind. -/
structure OnWire (A : Bytes → Prop) (R : Block → Prop) (m : Message) : Prop where
  entries : ∀ w ∈ m.wantlist, w.defined = true
  presences : ∀ w ∈ m.blockPresences, w.defined = true ∧ w ∉ m.blocks
  blocks : ∀ w b, m.blocks.lookup w = some b →
    b = AuthBlock.new b.block w.auth ∧ b.want = w ∧ R b.block
  data : m.DataOfBlocks
  auths : ∀ w ∈ m.names, A w.auth

variable {lib : CidLib} {A : Bytes → Prop} {R : Block → Prop} {m : Message}

theorem mem_wantlist_addEntry' {w k : Want} {p : Int32} {c d : Bool} {t : WantType} :
    k ∈ (m.addEntry' w p c t d).1.wantlist ↔ k = w ∨ k ∈ m.wantlist := by
  rw [addEntry']
  split
  · exact AList.mem_insert _
  · exact AList.mem_insert _

theorem tables_addEntry' (m : Message) (w : Want) (p : Int32) (c : Bool) (t : WantType) (d : Bool) :
    (m.addEntry' w p c t d).1.blocks = m.blocks ∧
      (m.addEntry' w p c t d).1.rawData = m.rawData ∧
      (m.addEntry' w p c t d).1.blockPresences = m.blockPresences ∧
      (m.addEntry' w p c t d).1.full = m.full := by
  rw [addEntry']
  split <;> exact ⟨rfl, rfl, rfl, rfl⟩

theorem onWire_new (full : Bool) : OnWire A R (new full) :=
  ⟨fun w h => by simp [new] at h, fun w h => by simp [new] at h, fun w b h => by simp [new] at h,
    fun w b h => by simp [new] at h, fun w h => by simp [mem_names, new] at h⟩

theorem OnWire.addEntry' (h : OnWire A R m) {w : Want} (hw : w.defined = true) (ha : A w.auth)
    (p : Int32) (c : Bool) (t : WantType) (d : Bool) :
    OnWire A R (m.addEntry' w p c t d).1 := by
  obtain ⟨hb, hr, hp, -⟩ := m.tables_addEntry' w p c t d
  refine ⟨fun k hk => ?_, ?_, ?_, ?_, fun k hk => ?_⟩
  · rcases mem_wantlist_addEntry'.mp hk with rfl | hk
    · exact hw
    · exact h.entries k hk
  · rw [hb, hp]
    exact h.presences
  · rw [hb]
    exact h.blocks
  · rw [DataOfBlocks, hb, hr]
    exact h.data
  · rw [mem_names, hb, hp, mem_wantlist_addEntry', or_assoc] at hk
    rcases hk with rfl | hk
    · exact ha
    · exact h.auths k (mem_names.mpr hk)

theorem mem_presences_addBlockPresence {w k : Want} {t : BlockPresenceType} :
    k ∈ (m.addBlockPresence w t).blockPresences ↔
      (k = w ∧ w ∉ m.blocks) ∨ k ∈ m.blockPresences := by
  rw [addBlockPresence]
  split
  · rename_i hb
    exact ⟨.inr, fun h => h.resolve_left fun h => h.2 hb⟩
  · rename_i hb
    exact (AList.mem_insert _).trans (or_congr_left ⟨fun h => ⟨h, hb⟩, And.left⟩)

theorem full_addBlockPresence (m : Message) (w : Want) (t : BlockPresenceType) :
    (m.addBlockPresence w t).full = m.full := by
  rw [addBlockPresence]
  split <;> rfl

theorem OnWire.addBlockPresence (h : OnWire A R m) {w : Want} (hw : w.defined = true)
    (ha : A w.auth) (t : BlockPresenceType) : OnWire A R (m.addBlockPresence w t) := by
  have hwl := m.wantlist_addBlockPresence w t
  refine ⟨?_, fun k hk => ?_, ?_, h.data.addBlockPresence w t, fun k hk => ?_⟩
  · rw [hwl]
    exact h.entries
  · rw [blocks_addBlockPresence]
    rcases mem_presences_addBlockPresence.mp hk with ⟨rfl, hb⟩ | hk
    · exact ⟨hw, hb⟩
    · exact h.presences k hk
  · rw [blocks_addBlockPresence]
    exact h.blocks
  · rw [mem_names, hwl, blocks_addBlockPresence, mem_presences_addBlockPresence] at hk
    rcases hk with hk | hk | ⟨rfl, -⟩ | hk
    · exact h.auths k (mem_names.mpr (.inl hk))
    · exact h.auths k (mem_names.mpr (.inr (.inl hk)))
    · exact ha
    · exact h.auths k (mem_names.mpr (.inr (.inr hk)))

theorem OnWire.addBlock (h : OnWire A R m) {b : Block} (hb : R b) {a : Bytes}
    (ha : A a) : OnWire A R (m.addBlock b a) := by
  have hmem : ∀ k, k ∈ (m.addBlock b a).blocks ↔ k = ⟨b.cid, a⟩ ∨ k ∈ m.blocks :=
    fun k => AList.mem_insert _
  have hpres : ∀ k, k ∈ (m.addBlock b a).blockPresences ↔ k ≠ ⟨b.cid, a⟩ ∧ k ∈ m.blockPresences :=
    fun k => AList.mem_erase
  refine ⟨h.entries, fun k hk => ?_, fun k ab hk => ?_, h.data.addBlock b a, fun k hk => ?_⟩
  · obtain ⟨hne, hk⟩ := (hpres k).mp hk
    refine ⟨(h.presences k hk).1, fun hkb => ?_⟩
    exact ((hmem k).mp hkb).elim hne (h.presences k hk).2
  · rw [lookup_blocks_addBlock] at hk
    split at hk
    · rename_i he
      rw [← Option.some.inj hk, he]
      exact ⟨rfl, rfl, hb⟩
    · exact h.blocks k ab hk
  · rw [mem_names, hmem, hpres] at hk
    rcases hk with hk | (rfl | hk) | hk
    · exact h.auths k (mem_names.mpr (.inl hk))
    · exact ha
    · exact h.auths k (mem_names.mpr (.inr (.inl hk)))
    · exact h.auths k (mem_names.mpr (.inr (.inr hk.2)))

/-! ## What is decoded is fit for the wire -/

theorem liftErr_eq_ok {E α : Type} {x : Except E α} {a : α} (h : liftErr x = .ok a) :
    x = .ok a := by
  cases x with
  | error e => cases h
  | ok a' => cases h; rfl

theorem onWire_fromEntry (m m' : Message) (e : PB.Entry) (h : OnWire LowerHex R m)
    (he : fromEntry lib m e = .ok m') : OnWire LowerHex R m' := by
  rw [fromEntry] at he
  split at he
  · rename_i hd
    have hw : Want.defined ⟨e.block, hexEncodeToString e.auth⟩ = true := hd
    cases he
    exact h.addEntry' hw (lowerHex_hexEncodeToString _) _ _ _ _
  · cases he

theorem onWire_fromPresence (m m' : Message) (bi : PB.BlockPresence) (h : OnWire LowerHex R m)
    (hbi : fromPresence lib m bi = .ok m') : OnWire LowerHex R m' := by
  rw [fromPresence] at hbi
  split at hbi
  · rename_i hd
    have hw : Want.defined ⟨bi.cid, hexEncodeToString bi.auth⟩ = true := hd
    cases hbi
    exact h.addBlockPresence hw (lowerHex_hexEncodeToString _) _
  · cases hbi

theorem onWire_fromPayload (hsum : ∀ p d c, lib.sum p d = .ok c → R ⟨c, d⟩) (m m' : Message)
    (b : PB.Block) (h : OnWire LowerHex R m) (hb : fromPayload lib m b = .ok m') :
    OnWire LowerHex R m' := by
  rw [fromPayload] at hb
  obtain ⟨pref, -, hb⟩ := bind_eq_ok.mp hb
  obtain ⟨c, hc, hb⟩ := bind_eq_ok.mp hb
  obtain ⟨blk, hblk, hb⟩ := bind_eq_ok.mp hb
  cases hb
  rw [lib.newBlockWithCid_eq_ok (liftErr_eq_ok hblk)]
  exact h.addBlock (hsum pref b.data c (liftErr_eq_ok hc)) (lowerHex_hexEncodeToString _)

theorem onWire_deprecated (hnew : ∀ d, R (lib.newBlock d)) : ∀ (ds : List Bytes) {m : Message},
    OnWire LowerHex R m →
    OnWire LowerHex R (ds.foldl (fun m d => m.addBlock (lib.newBlock d) []) m)
  | [], _, h => h
  | d :: ds, _, h => onWire_deprecated hnew ds (h.addBlock (hnew d) trivial)

/-- A message that was decoded is fit for the wire, with auth strings in lower-case
hexadecimal and blocks of any kind that computed CIDs give. -/
theorem onWire_newMessageFromProto (hsum : ∀ p d c, lib.sum p d = .ok c → R ⟨c, d⟩)
    (hnew : ∀ d, R (lib.newBlock d)) {pbm : PB.Message} {m : Message}
    (h : newMessageFromProto lib pbm = .ok m) : OnWire LowerHex R m := by
  rw [newMessageFromProto] at h
  obtain ⟨m₁, h₁, h⟩ := bind_eq_ok.mp h
  obtain ⟨m₂, h₂, h⟩ := bind_eq_ok.mp h
  obtain ⟨m₃, h₃, h⟩ := bind_eq_ok.mp h
  cases h
  have hw₁ : OnWire LowerHex R m₁ :=
    foldlM_invariant (fun m e m' h => onWire_fromEntry m m' e h) _ (onWire_new _) h₁
  have hw₂ : OnWire LowerHex R m₂ := foldlM_invariant
    (fun m b m' h => onWire_fromPayload hsum m m' b h) _ (onWire_deprecated hnew _ hw₁) h₂
  have hw₃ : OnWire LowerHex R m₃ := foldlM_invariant
    (fun m bi m' h => onWire_fromPresence m m' bi h) _ hw₂ h₃
  exact ⟨hw₃.entries, hw₃.presences, hw₃.blocks, hw₃.data, hw₃.auths⟩

/-! ## Decoding what was encoded -/

/-- The auth string of a want survives the wire. -/
theorem want_of_lowerHex {w : Want} (h : LowerHex w.auth) :
    (⟨w.cid, hexEncodeToString (hexDecodeString w.auth)⟩ : Want) = w := by
  rw [hexEncodeToString_hexDecodeString h]

/-- The wantlist entries are decoded to what they were, each under its own want. -/
theorem fromEntries (h : ∀ w ∈ m.wantlist, w.defined = true ∧ LowerHex w.auth) (o : RangeOrder) :
    ∃ m', ((o.range m.wantlist.values).map Entry.toPB).foldlM (fromEntry lib) (new m.full) =
        .ok m' ∧
      (∀ w, m'.wantlist.lookup w = m.wantlist.lookup w) ∧
      m'.blocks = ∅ ∧ m'.blockPresences = ∅ ∧ m'.full = m.full := by
  have hval : ∀ e, e ∈ o.range m.wantlist.values ↔ m.wantlist.lookup e.want = some e :=
    fun _ => mem_wantlistEntries
  have hnd : ((o.range m.wantlist.values).map Entry.want).Nodup := nodup_wantlistEntries
  -- an entry that is not there yet is stored as it is
  have hstep : ∀ (m' : Message) (e : Entry), (m'.blocks = ∅ ∧ m'.blockPresences = ∅ ∧
      m'.full = m.full) → (e.want.defined = true ∧ LowerHex e.want.auth) →
      m'.wantlist.lookup e.want = none →
      ∃ m'', fromEntry lib m' e.toPB = .ok m'' ∧
        (m''.blocks = ∅ ∧ m''.blockPresences = ∅ ∧ m''.full = m.full) ∧
        ∀ w, m''.wantlist.lookup w = if w = e.want then some e else m'.wantlist.lookup w := by
    intro m' e hI hQ hnew
    refine ⟨m'.setEntry e.want e rfl, ?_, hI, fun w => lookup_setEntry⟩
    rw [fromEntry, if_pos (show e.toPB.block.defined = true from hQ.1)]
    show Except.ok (m'.addEntry' ⟨e.want.cid, hexEncodeToString (hexDecodeString e.want.auth)⟩
      e.priority e.cancel e.wantType e.sendDontHave).1 = _
    rw [want_of_lowerHex hQ.2, addEntry']
    split
    · rename_i he
      exact absurd (hnew.symm.trans he) (by simp)
    · rfl
  rw [List.foldlM_map]
  obtain ⟨m', hm', hI, hobs⟩ := foldlM_store (fun m w => m.wantlist.lookup w) Entry.want
    (fun e => e) hstep (o.range m.wantlist.values) (s := new m.full) hnd ⟨rfl, rfl, rfl⟩
    fun e he => by
      exact ⟨h _ (GoMap.mem_of_lookup ((hval e).mp he)), by simp [new]⟩
  refine ⟨m', hm', fun w => Option.ext fun e => (hobs w e).trans ?_, hI⟩
  constructor
  · rintro (h0 | ⟨e', he', rfl, rfl⟩)
    · simp [new] at h0
    · exact (hval e').mp he'
  · intro hw
    have hkey := m.keyed w e hw
    exact .inr ⟨e, (hval e).mpr (hkey ▸ hw), hkey, rfl⟩

/-- What a range over a map visits, with the keys it has. -/
theorem mem_range_pairs {V : Type} {t : GoMap Want V} {o : RangeOrder} {w : Want} {v : V} :
    (∃ e ∈ o.range t.pairs, e.1 = w ∧ e.2 = v) ↔ t.lookup w = some v := by
  constructor
  · rintro ⟨e, he, rfl, rfl⟩
    exact GoMap.mem_pairs.mp (RangeOrder.mem_range.mp he)
  · exact fun h => ⟨(w, v), RangeOrder.mem_range.mpr (GoMap.mem_pairs.mpr h), rfl, rfl⟩

theorem nodup_range_pairs {V : Type} (t : GoMap Want V) (o : RangeOrder) :
    ((o.range t.pairs).map Prod.fst).Nodup := by
  rw [((o.range_perm _).map _).nodup_iff, GoMap.map_fst_pairs]
  exact t.keys_nodup

/-- The blocks are rebuilt, each under its own want. -/
theorem fromBlocks (h : OnWire LowerHex lib.Rebuilds m) (o : RangeOrder) {m₁ : Message}
    (hb : m₁.blocks = ∅) (hp : m₁.blockPresences = ∅) :
    ∃ m', ((o.range m.blocks.pairs).map (m.blockToPB lib)).foldlM (fromPayload lib) m₁ = .ok m' ∧
      (∀ w, m'.blocks.lookup w = m.blocks.lookup w) ∧
      m'.wantlist = m₁.wantlist ∧ m'.blockPresences = ∅ ∧ m'.full = m₁.full := by
  have hstep : ∀ (m' : Message) (e : Want × AuthBlock), (m'.wantlist = m₁.wantlist ∧
      m'.blockPresences = ∅ ∧ m'.full = m₁.full) → m.blocks.lookup e.1 = some e.2 →
      m'.blocks.lookup e.1 = none →
      ∃ m'', fromPayload lib m' (m.blockToPB lib e) = .ok m'' ∧
        (m''.wantlist = m₁.wantlist ∧ m''.blockPresences = ∅ ∧ m''.full = m₁.full) ∧
        ∀ w, m''.blocks.lookup w = if w = e.1 then some e.2 else m'.blocks.lookup w := by
    rintro m' ⟨w, b⟩ hI hw -
    obtain ⟨hnew, hwant, hpref, hsum⟩ := h.blocks w b hw
    have hhex : LowerHex w.auth := h.auths w (mem_names.mpr (.inr (.inl (GoMap.mem_of_lookup hw))))
    have hcid : (⟨b.block.cid, w.auth⟩ : Want) = w := by
      rw [← hwant, hnew]
      rfl
    refine ⟨m'.addBlock b.block w.auth, ?_, ⟨hI.1, ?_, hI.2.2⟩, fun k => ?_⟩
    · rw [fromPayload, blockToPB]
      dsimp only
      rw [h.data w b hw, Option.getD_some, hpref]
      show (liftErr (lib.sum _ _) >>= _) = _
      rw [hsum]
      show (liftErr (lib.newBlockWithCid _ _) >>= _) = _
      rw [lib.newBlockWithCid_of_sum hsum, hwant, hexEncodeToString_hexDecodeString hhex]
      rfl
    · show AList.erase _ m'.blockPresences = ∅
      rw [hI.2.1]
      rfl
    · rw [lookup_blocks_addBlock, hcid, ← hnew]
  rw [List.foldlM_map]
  obtain ⟨m', hm', hI, hobs⟩ := foldlM_store (fun m w => m.blocks.lookup w) Prod.fst Prod.snd hstep
    (o.range m.blocks.pairs) (s := m₁) (nodup_range_pairs _ o) ⟨rfl, hp, rfl⟩ fun e he =>
      ⟨GoMap.mem_pairs.mp (RangeOrder.mem_range.mp he), by simp [hb]⟩
  refine ⟨m', hm', fun w => Option.ext fun b => (hobs w b).trans ?_, hI⟩
  rw [mem_range_pairs, hb]
  simp

/-- The presences are decoded, as none is for a want that has its block. -/
theorem fromPresences (h : OnWire LowerHex lib.Rebuilds m) (o : RangeOrder) {m₁ : Message}
    (hb : ∀ w, m₁.blocks.lookup w = m.blocks.lookup w) (hp : m₁.blockPresences = ∅) :
    ∃ m', ((o.range m.blockPresences.pairs).map presenceToPB).foldlM (fromPresence lib) m₁ =
        .ok m' ∧
      (∀ w, m'.blockPresences.lookup w = m.blockPresences.lookup w) ∧
      m'.wantlist = m₁.wantlist ∧ m'.blocks = m₁.blocks ∧ m'.full = m₁.full := by
  have hstep : ∀ (m' : Message) (e : Want × BlockPresenceType), (m'.wantlist = m₁.wantlist ∧
      m'.blocks = m₁.blocks ∧ m'.full = m₁.full) →
      (e.1.defined = true ∧ LowerHex e.1.auth ∧ e.1 ∉ m₁.blocks) →
      m'.blockPresences.lookup e.1 = none →
      ∃ m'', fromPresence lib m' (presenceToPB e) = .ok m'' ∧
        (m''.wantlist = m₁.wantlist ∧ m''.blocks = m₁.blocks ∧ m''.full = m₁.full) ∧
        ∀ w, m''.blockPresences.lookup w =
          if w = e.1 then some e.2 else m'.blockPresences.lookup w := by
    rintro m' ⟨w, t⟩ hI ⟨hd, hhex, hblk⟩ -
    have hwl := m'.wantlist_addBlockPresence w t
    have hfull := m'.full_addBlockPresence w t
    have hblk : w ∉ m'.blocks := by rwa [hI.2.1]
    refine ⟨m'.addBlockPresence w t, ?_, ⟨hwl.trans hI.1,
      (blocks_addBlockPresence ..).trans hI.2.1, hfull.trans hI.2.2⟩, fun k => ?_⟩
    · rw [fromPresence, if_pos (show (presenceToPB (w, t)).cid.defined = true from hd)]
      show Except.ok (m'.addBlockPresence ⟨w.cid, hexEncodeToString (hexDecodeString w.auth)⟩ t) = _
      rw [want_of_lowerHex hhex]
    · rw [lookup_addBlockPresence]
      simp [hblk]
  have hno : ∀ w, w ∈ m.blockPresences → w ∉ m₁.blocks := by
    intro w hw hmem
    refine (h.presences w hw).2 ?_
    rw [GoMap.mem_iff_lookup] at hmem ⊢
    rwa [← hb]
  rw [List.foldlM_map]
  obtain ⟨m', hm', hI, hobs⟩ := foldlM_store (fun m w => m.blockPresences.lookup w) Prod.fst
    Prod.snd hstep (o.range m.blockPresences.pairs) (s := m₁) (nodup_range_pairs _ o)
    ⟨rfl, rfl, rfl⟩ fun e he => by
      have hmem : e.1 ∈ m.blockPresences :=
        GoMap.mem_of_lookup (GoMap.mem_pairs.mp (RangeOrder.mem_range.mp he))
      have hhex : LowerHex e.1.auth := h.auths _ (mem_names.mpr (.inr (.inr hmem)))
      exact ⟨⟨(h.presences _ hmem).1, hhex, hno _ hmem⟩, by simp [hp]⟩
  refine ⟨m', hm', fun w => Option.ext fun b => (hobs w b).trans ?_, hI⟩
  rw [mem_range_pairs, hp]
  simp

/-- A message fit for the wire, with auth strings in lower-case hexadecimal, comes
back as it was. -/
theorem same_of_onWire (h : OnWire LowerHex lib.Rebuilds m) (o : WireOrders) :
    ∃ m', newMessageFromProto lib (m.toProtoV1 lib o) = .ok m' ∧ m'.Same m := by
  have hentries : ∀ w ∈ m.wantlist, w.defined = true ∧ LowerHex w.auth := fun w hw =>
    ⟨h.entries w hw, h.auths w (mem_names.mpr (.inl hw))⟩
  obtain ⟨m₁, hm₁, hwl, hb₁, hp₁, hf₁⟩ := @fromEntries lib m hentries o.entries
  obtain ⟨m₂, hm₂, hbl, hwl₂, hp₂, hf₂⟩ := fromBlocks h o.blocks hb₁ hp₁
  obtain ⟨m₃, hm₃, hpr, hwl₃, hb₃, hf₃⟩ := fromPresences h o.presences hbl hp₂
  refine ⟨m₃.setPendingBytes m.pendingBytes, ?_, ?_⟩
  · rw [newMessageFromProto]
    show (List.foldlM (fromEntry lib) (new m.full) _ >>= _) = _
    rw [show (m.toProtoV1 lib o).wantlist.entries =
      (o.entries.range m.wantlist.values).map Entry.toPB from rfl, hm₁]
    show (List.foldlM (fromPayload lib) m₁ _ >>= _) = _
    rw [show (m.toProtoV1 lib o).payload = (o.blocks.range m.blocks.pairs).map (m.blockToPB lib)
      from rfl, hm₂]
    show (List.foldlM (fromPresence lib) m₂ _ >>= _) = _
    rw [show (m.toProtoV1 lib o).blockPresences =
      (o.presences.range m.blockPresences.pairs).map presenceToPB from rfl, hm₃]
    rfl
  · refine ⟨hf₃.trans (hf₂.trans hf₁), fun w => ?_, fun w => ?_, hpr, rfl⟩
    · show m₃.wantlist.lookup w = _
      rw [hwl₃, hwl₂, hwl]
    · show m₃.blocks.lookup w = _
      rw [hb₃, hbl]

/-! ## Messages that are built -/

/-- The operations that build a message. -/
inductive BuildOp where
  | addEntry (w : Want) (priority : Int32) (wantType : WantType) (sendDontHave : Bool)
  | cancel (w : Want)
  | remove (w : Want)
  | addBlock (b : Block) (a : Bytes)
  | addBlockPresence (w : Want) (t : BlockPresenceType)
  | addHave (w : Want)
  | addDontHave (w : Want)
  | setPendingBytes (n : Int32)
  | reset (full : Bool)

/-- The message after an operation. -/
def build (m : Message) : BuildOp → Message
  | .addEntry w p t d => (m.addEntry w p t d).1
  | .cancel w => (m.cancel w).1
  | .remove w => m.remove w
  | .addBlock b a => m.addBlock b a
  | .addBlockPresence w t => m.addBlockPresence w t
  | .addHave w => m.addHave w
  | .addDontHave w => m.addDontHave w
  | .setPendingBytes n => m.setPendingBytes n
  | .reset full => m.reset full

/-- The CIDs of the operation are defined, and a block's is the hash of its data under
its own prefix. -/
def BuildOp.Sound (lib : CidLib) : BuildOp → Prop
  | .addEntry w _ _ _ | .cancel w | .remove w | .addBlockPresence w _ | .addHave w
  | .addDontHave w => w.defined = true
  | .addBlock b _ => b.cid.defined = true ∧ lib.sum (lib.prefixOf b.cid) b.rawData = .ok b.cid
  | .setPendingBytes _ | .reset _ => True

theorem onWire_build (hlib : ∀ p, lib.prefixFromBytes (lib.bytes p) = .ok p)
    (h : OnWire (fun _ => True) lib.Rebuilds m) (op : BuildOp) (hop : op.Sound lib) :
    OnWire (fun _ => True) lib.Rebuilds (m.build op) := by
  cases op with
  | addEntry w p t d => exact h.addEntry' hop trivial _ _ _ _
  | cancel w => exact h.addEntry' hop trivial _ _ _ _
  | remove w =>
      refine ⟨fun k hk => h.entries k (AList.mem_erase.mp hk).2, h.presences, h.blocks, h.data,
        fun _ _ => trivial⟩
  | addBlock b a => exact h.addBlock ⟨hlib _, hop.2⟩ trivial
  | addBlockPresence w t => exact h.addBlockPresence hop trivial t
  | addHave w => exact h.addBlockPresence hop trivial .HAVE
  | addDontHave w => exact h.addBlockPresence hop trivial .DONT_HAVE
  | setPendingBytes n => exact ⟨h.entries, h.presences, h.blocks, h.data, h.auths⟩
  | reset full =>
      have hnew : OnWire (fun _ => True) lib.Rebuilds (new full) := onWire_new full
      refine ⟨hnew.entries, hnew.presences, hnew.blocks, fun w b hb => ?_, fun _ _ => trivial⟩
      exact absurd ((AList.lookup_empty w).symm.trans hb) (by simp)

theorem onWire_built (hlib : ∀ p, lib.prefixFromBytes (lib.bytes p) = .ok p) :
    ∀ (ops : List BuildOp) {m : Message}, OnWire (fun _ => True) lib.Rebuilds m →
      (∀ op ∈ ops, op.Sound lib) → OnWire (fun _ => True) lib.Rebuilds (run build m ops)
  | [], _, h, _ => h
  | op :: ops, _, h, hops => by
      obtain ⟨hop, hops⟩ := List.forall_mem_cons.mp hops
      exact onWire_built hlib ops (onWire_build hlib h op hop) hops

/-- **A message that is built comes back from the wire** as it was, just when all
the auth strings in it are hexadecimal in lower case. -/
theorem built_same_iff (lib : CidLib) (hlib : ∀ p, lib.prefixFromBytes (lib.bytes p) = .ok p)
    (full : Bool) (ops : List BuildOp) (hops : ∀ op ∈ ops, op.Sound lib) (o : WireOrders) :
    (∃ m', newMessageFromProto lib ((run build (new full) ops).toProtoV1 lib o) = .ok m' ∧
        m'.Same (run build (new full) ops)) ↔
      ∀ w ∈ (run build (new full) ops).names, LowerHex w.auth := by
  have h := onWire_built hlib ops (onWire_new full) hops
  constructor
  · rintro ⟨m', hm', hs⟩ w hw
    have h' : OnWire LowerHex (fun _ => True) m' :=
      onWire_newMessageFromProto (fun _ _ _ _ => trivial) (fun _ => trivial) hm'
    refine h'.auths w (mem_names.mpr ((mem_names.mp hw).imp ?_ (Or.imp ?_ ?_)))
    · simp only [GoMap.mem_iff_lookup, hs.wantlist, imp_self]
    · simp only [GoMap.mem_iff_lookup, hs.blocks, imp_self]
    · simp only [GoMap.mem_iff_lookup, hs.blockPresences, imp_self]
  · exact fun hhex => same_of_onWire ⟨h.entries, h.presences, h.blocks, h.data, hhex⟩ o

/-- A library whose CIDs are the data behind a prefix of two bytes. -/
def plainLib : CidLib where
  Prefix := UInt8 × UInt8
  Err := Unit
  prefixFromBytes bs :=
    match bs with
    | [v, c] => .ok (v, c)
    | _ => .error ()
  bytes p := [p.1, p.2]
  sum p d := .ok ⟨p.1 :: p.2 :: d⟩
  prefixOf c := (c.str.headD 0, c.str.tail.headD 0)
  newBlock d := ⟨⟨18 :: 32 :: d⟩, d⟩
  newBlockWithCid d c := .ok ⟨c, d⟩
  rawData_newBlock _ := rfl
  newBlockWithCid_eq_ok h := (Except.ok.inj h).symm
  newBlockWithCid_of_sum _ := rfl

/-- The stored order, for all three ranges. -/
def WireOrders.stored : WireOrders := ⟨.stored, .stored, .stored⟩

/-- An entry, a block and a presence under auth strings in lower-case hexadecimal. -/
theorem built_same_lowerHex :
    let ops : List BuildOp := [.addEntry ⟨⟨[1, 85, 7]⟩, [97, 98]⟩ 5 .wantHave true,
      .addBlock ⟨⟨[1, 85, 9]⟩, [9]⟩ [48, 102], .addDontHave ⟨⟨[1, 85, 9]⟩, []⟩]
    (∀ op ∈ ops, op.Sound plainLib) ∧
      ∃ m', newMessageFromProto plainLib
          ((run build (new true) ops).toProtoV1 plainLib .stored) = .ok m' ∧
        m'.Same (run build (new true) ops) := by
  intro ops
  have hops : ∀ op ∈ ops, op.Sound plainLib := by
    intro op hop
    simp only [ops, List.mem_cons, List.not_mem_nil, or_false] at hop
    rcases hop with rfl | rfl | rfl
    · exact rfl
    · exact ⟨rfl, rfl⟩
    · exact rfl
  exact ⟨hops, (built_same_iff plainLib (fun _ => rfl) true ops hops .stored).mpr
    (by decide)⟩

/-- Two wants of one block whose auth strings are not hexadecimal: both arrive with
an empty one, and as one entry. -/
theorem auths_lost_on_wire :
    let w : Want := ⟨⟨[1, 85, 7]⟩, [122, 122]⟩
    let w' : Want := ⟨⟨[1, 85, 7]⟩, [121, 121]⟩
    let m := run build (new false) [.addEntry w 1 .wantBlock true, .addEntry w' 1 .wantBlock true]
    m.wantlist.keys = [w', w] ∧
      (newMessageFromProto plainLib (m.toProtoV1 plainLib .stored)).toOption.map
        (fun m' => m'.wantlist.keys) = some [⟨⟨[1, 85, 7]⟩, []⟩] ∧
      ¬ ∃ m', newMessageFromProto plainLib (m.toProtoV1 plainLib .stored) = .ok m' ∧
        m'.Same m := by
  intro w w' m
  have hkeys : m.wantlist.keys = [w', w] := by decide
  have hback : (newMessageFromProto plainLib (m.toProtoV1 plainLib .stored)).toOption.map
      (fun m' => m'.wantlist.keys) = some [⟨⟨[1, 85, 7]⟩, []⟩] := by decide
  refine ⟨hkeys, hback, ?_⟩
  rintro ⟨m', hm', hs⟩
  rw [hm'] at hback
  have hback : m'.wantlist.keys = [⟨⟨[1, 85, 7]⟩, []⟩] := Option.some.inj hback
  have hmem : w ∈ m.wantlist := by
    rw [AList.mem_keys, hkeys]
    simp
  rw [GoMap.mem_iff_lookup, ← hs.wantlist, ← GoMap.mem_iff_lookup, AList.mem_keys,
    hback] at hmem
  exact absurd hmem (by decide)

/-- **A message that was received comes back from the wire** as it was, whatever
the message that was received looked like. -/
theorem received_same (lib : CidLib) (hlib : lib.Lawful) (pbm : PB.Message) (m : Message)
    (hm : newMessageFromProto lib pbm = .ok m) (o : WireOrders) :
    ∃ m', newMessageFromProto lib (m.toProtoV1 lib o) = .ok m' ∧ m'.Same m := by
  refine same_of_onWire (onWire_newMessageFromProto hlib.sums (fun d => ?_) hm) o
  obtain ⟨p, hp⟩ := hlib.newBlock d
  rw [CidLib.newBlock_eq]
  exact hlib.sums p d _ hp

theorem lawful_plainLib : plainLib.Lawful := by
  refine ⟨fun p d c h => ?_, fun d => ⟨(18, 32), rfl⟩⟩
  cases h
  exact ⟨rfl, rfl⟩

/-- Two entries for one want, a block in each of the two formats, and a presence
for one of them. -/
theorem received_same_mixed :
    let pbm : PB.Message :=
      { wantlist := ⟨[⟨⟨[1, 85, 7]⟩, 5, false, .wantHave, true, [171]⟩,
          ⟨⟨[1, 85, 7]⟩, 6, true, .wantBlock, false, [171]⟩], true⟩
        blocks := [[9]]
        payload := [⟨[1, 85], [9], [15]⟩]
        blockPresences := [⟨⟨[18, 32, 9]⟩, .HAVE, []⟩, ⟨⟨[1, 85, 9]⟩, .DONT_HAVE, []⟩]
        pendingBytes := 3 }
    ∃ m, newMessageFromProto plainLib pbm = .ok m ∧
      ∃ m', newMessageFromProto plainLib (m.toProtoV1 plainLib .stored) = .ok m' ∧ m'.Same m := by
  intro pbm
  obtain ⟨m, hm⟩ : ∃ m, newMessageFromProto plainLib pbm = .ok m := ⟨_, rfl⟩
  exact ⟨m, hm, received_same plainLib lawful_plainLib pbm m hm .stored⟩

end Message

end BitswapAuth
