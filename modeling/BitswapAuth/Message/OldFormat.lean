/-
# `BitswapAuth.Message.OldFormat` — what the old wire format keeps

A peer with an old version of the protocol is sent `ToProtoV0` of a message:

    wantlist          as in the new format
    blocks            the data, and nothing else
    block presences   not sent
    pending bytes     not sent

The receiver makes a block of the data with `NewBlock`, whose CID is the CIDv0 of its SHA-256
hash, and keeps it under that CID and the empty auth string.  So the block that arrives is the one
that was sent only if the sender had it under a CIDv0 and no auth string, and blocks with the same
data arrive as one (`OldImage`).  That decides when the two formats say the same
(`oldFormat_keeps`).

Nothing is asked here of the operations that build the message, only of what it has in the end.
-/
import BitswapAuth.Message.Clone

namespace BitswapAuth

open Lib

/-- The prefix of version 0: `NewBlock` computes its CIDs with it, and they have it. -/
structure CidLib.V0 (lib : CidLib) (p : lib.Prefix) : Prop where
  sum : ∀ d, lib.sum p d = .ok (lib.newBlockCid d)
  prefixOf : ∀ d, lib.prefixOf (lib.newBlockCid d) = p

namespace Message

variable {lib : CidLib} {m : Message}

/-! ## Messages that are built -/

/-- No want has both a block and a presence, a block is kept under its CID and an auth string, and
its data is at hand. -/
structure Stored (m : Message) : Prop where
  presences : ∀ w ∈ m.blockPresences, w ∉ m.blocks
  blocks : ∀ w b, m.blocks.lookup w = some b → b = AuthBlock.new b.block w.auth ∧ b.want = w
  data : m.DataOfBlocks

theorem Stored.addEntry' (h : m.Stored) (w : Want) (p : Int32) (c : Bool) (t : WantType)
    (d : Bool) : (m.addEntry' w p c t d).1.Stored := by
  obtain ⟨hb, -, hp, -⟩ := m.tables_addEntry' w p c t d
  refine ⟨?_, ?_, h.data.addEntry' w p c t d⟩
  · rw [hb, hp]
    exact h.presences
  · rw [hb]
    exact h.blocks

theorem Stored.addBlock (h : m.Stored) (b : Block) (a : Bytes) : (m.addBlock b a).Stored := by
  refine ⟨fun w hw hwb => ?_, fun w ab hw => ?_, h.data.addBlock b a⟩
  · obtain ⟨hne, hw⟩ := AList.mem_erase.mp hw
    exact ((AList.mem_insert _).mp hwb).elim hne (h.presences w hw)
  · rw [lookup_blocks_addBlock] at hw
    split at hw
    · rename_i he
      rw [← Option.some.inj hw, he]
      exact ⟨rfl, rfl⟩
    · exact h.blocks w ab hw

theorem Stored.addBlockPresence (h : m.Stored) (w : Want) (t : BlockPresenceType) :
    (m.addBlockPresence w t).Stored := by
  refine ⟨fun k hk => ?_, ?_, h.data.addBlockPresence w t⟩
  · rw [blocks_addBlockPresence]
    rcases mem_presences_addBlockPresence.mp hk with ⟨rfl, hb⟩ | hk
    · exact hb
    · exact h.presences k hk
  · rw [blocks_addBlockPresence]
    exact h.blocks

theorem stored_reset (m : Message) (full : Bool) : (m.reset full).Stored :=
  ⟨fun w hw => absurd hw (AList.notMem_empty w),
    fun w b hb => absurd ((AList.lookup_empty w).symm.trans hb) (by simp),
    m.dataOfBlocks_reset full⟩

theorem stored_build (m : Message) (op : BuildOp) (h : m.Stored) : (m.build op).Stored := by
  cases op with
  | addEntry w p t d => exact h.addEntry' w p false t d
  | cancel w => exact h.addEntry' w 0 true .wantBlock false
  | remove w => exact ⟨h.presences, h.blocks, h.data⟩
  | addBlock b a => exact h.addBlock b a
  | addBlockPresence w t => exact h.addBlockPresence w t
  | addHave w => exact h.addBlockPresence w .HAVE
  | addDontHave w => exact h.addBlockPresence w .DONT_HAVE
  | setPendingBytes n => exact ⟨h.presences, h.blocks, h.data⟩
  | reset full => exact m.stored_reset full

theorem stored_built (full : Bool) (ops : List BuildOp) : (run build (new full) ops).Stored := by
  refine run_invariant stored_build ops ⟨fun w hw => ?_, fun w b hb => ?_, fun w b hb => ?_⟩
  · exact absurd hw (AList.notMem_empty w)
  · simp [new] at hb
  · simp [new] at hb

/-! ## The image of a message -/

/-- The data is that of a block of the message. -/
def HasData (m : Message) (d : Bytes) : Prop :=
  ∃ w b, m.blocks.lookup w = some b ∧ b.block.rawData = d

/-- What the receiver makes of data. -/
def oldBlock (lib : CidLib) (d : Bytes) : AuthBlock := AuthBlock.new (lib.newBlock d) []

/-- The message that arrives in the old format: the wantlist with its flag, no presence and no
pending bytes, and of every block its data, under the CID that `NewBlock` gives to it and without
an auth string.  Data with one hash arrives as one block. -/
structure OldImage (lib : CidLib) (m m₀ : Message) : Prop where
  full : m₀.full = m.full
  wantlist : ∀ w, m₀.wantlist.lookup w = m.wantlist.lookup w
  blockPresences : m₀.blockPresences = ∅
  pendingBytes : m₀.pendingBytes = 0
  only : ∀ w b, m₀.blocks.lookup w = some b →
    ∃ d, m.HasData d ∧ w = ⟨lib.newBlockCid d, []⟩ ∧ b = oldBlock lib d
  every : ∀ d, m.HasData d → ⟨lib.newBlockCid d, []⟩ ∈ m₀.blocks

/-- If no two blocks' data have one hash, the blocks that arrive are exactly those of the data. -/
theorem OldImage.lookup_blocks {m₀ : Message} (h : OldImage lib m m₀)
    (hinj : ∀ d d', m.HasData d → m.HasData d' → lib.newBlockCid d = lib.newBlockCid d' → d = d')
    (w : Want) (b : AuthBlock) : m₀.blocks.lookup w = some b ↔
      ∃ d, m.HasData d ∧ w = ⟨lib.newBlockCid d, []⟩ ∧ b = oldBlock lib d := by
  refine ⟨h.only w b, ?_⟩
  rintro ⟨d, hd, rfl, rfl⟩
  obtain ⟨b, hb⟩ := GoMap.mem_iff_lookup.mp (h.every d hd)
  obtain ⟨d', hd', hw, rfl⟩ := h.only _ b hb
  rw [hb, hinj d d' hd hd' (congrArg Want.cid hw)]

/-- What the blocks of the old format leave: one for each hash of their data. -/
theorem foldl_deprecated (ds : List Bytes) : ∀ m : Message,
    let m' := ds.foldl (fun m d => m.addBlock (lib.newBlock d) []) m
    m'.full = m.full ∧ m'.wantlist = m.wantlist ∧
      (m.blockPresences = ∅ → m'.blockPresences = ∅) ∧
      (∀ w b, m'.blocks.lookup w = some b → m.blocks.lookup w = some b ∨
        ∃ d ∈ ds, w = ⟨lib.newBlockCid d, []⟩ ∧ b = oldBlock lib d) ∧
      ∀ w, w ∈ m'.blocks ↔ w ∈ m.blocks ∨ ∃ d ∈ ds, w = ⟨lib.newBlockCid d, []⟩ := by
  induction ds with
  | nil => intro m; simp
  | cons d ds ih =>
      intro m
      obtain ⟨hf, hw, hp, hb, hmem⟩ := ih (m.addBlock (lib.newBlock d) [])
      refine ⟨hf, hw, fun h => hp ?_, fun w b hwb => ?_, fun w => ?_⟩
      · show AList.erase _ m.blockPresences = ∅
        rw [h]
        rfl
      · rcases hb w b hwb with hold | ⟨d', hd', hd⟩
        · rw [lookup_blocks_addBlock] at hold
          split at hold
          · rename_i he
            exact .inr ⟨d, List.mem_cons_self, he, (Option.some.inj hold).symm⟩
          · exact .inl hold
        · exact .inr ⟨d', List.mem_cons_of_mem d hd', hd⟩
      · have hone : w ∈ (m.addBlock (lib.newBlock d) []).blocks ↔
            w = ⟨lib.newBlockCid d, []⟩ ∨ w ∈ m.blocks := AList.mem_insert _
        rw [List.foldl_cons, hmem, hone, List.exists_mem_cons_iff, or_comm (a := w = _), or_assoc]

/-- The data that is sent is that of the blocks. -/
theorem mem_toProtoV0_blocks (h : m.DataOfBlocks) (o : WireOrders) (d : Bytes) :
    d ∈ (m.toProtoV0 o).blocks ↔ m.HasData d := by
  show d ∈ (o.blocks.range m.blocks.pairs).map _ ↔ _
  rw [List.mem_map]
  constructor
  · rintro ⟨e, he, rfl⟩
    have hlook := GoMap.mem_pairs.mp (RangeOrder.mem_range.mp he)
    exact ⟨e.1, e.2, hlook, (h.wireData hlook).symm⟩
  · rintro ⟨w, b, hb, rfl⟩
    exact ⟨(w, b), RangeOrder.mem_range.mpr (GoMap.mem_pairs.mpr hb), h.wireData hb⟩

/-- A message whose wantlist survives the wire arrives as its image. -/
theorem exists_oldImage (hdata : m.DataOfBlocks)
    (hentries : ∀ w ∈ m.wantlist, w.defined = true ∧ LowerHex w.auth) (o : WireOrders) :
    ∃ m₀, newMessageFromProto lib (m.toProtoV0 o) = .ok m₀ ∧ OldImage lib m m₀ := by
  obtain ⟨m₁, hm₁, hwl, hb₁, hp₁, hf₁⟩ := @fromEntries lib m hentries o.entries
  obtain ⟨hf, hw, hp, hb, hmem⟩ := @foldl_deprecated lib (m.toProtoV0 o).blocks m₁
  refine ⟨((m.toProtoV0 o).blocks.foldl (fun (m : Message) d => m.addBlock (lib.newBlock d) [])
    m₁).setPendingBytes 0, ?_, ⟨hf.trans hf₁, fun w => ?_, hp hp₁, rfl, fun w b hwb => ?_,
    fun d hd => ?_⟩⟩
  · simp only [newMessageFromProto]
    rw [show (m.toProtoV0 o).wantlist.entries =
        (o.entries.range m.wantlist.values).map Entry.toPB from rfl,
      show (m.toProtoV0 o).wantlist.full = m.full from rfl, hm₁]
    -- the two lists that only the new format has are empty
    rfl
  · show AList.lookup w (List.foldl _ m₁ _).wantlist = _
    rw [hw, hwl]
  · rcases hb w b hwb with hold | ⟨d, hd, hwd⟩
    · rw [hb₁, AList.lookup_empty] at hold
      cases hold
    · exact ⟨d, (mem_toProtoV0_blocks hdata o d).mp hd, hwd⟩
  · exact (hmem _).mpr (.inr ⟨d, (mem_toProtoV0_blocks hdata o d).mpr hd, rfl⟩)

/-! ## When the formats agree -/

/-- Each block of the message has the CID that its own prefix computes from the data. -/
def Hashed (lib : CidLib) (m : Message) : Prop :=
  ∀ w b, m.blocks.lookup w = some b →
    lib.sum (lib.prefixOf b.block.cid) b.block.rawData = .ok b.block.cid

/-- The new format has nothing to say that the old one has not: the blocks have a CIDv0 and no
auth string, and there are no presences and no pending bytes. -/
structure Plain (lib : CidLib) (v0 : lib.Prefix) (m : Message) : Prop where
  blocks : ∀ w b, m.blocks.lookup w = some b → lib.prefixOf b.block.cid = v0 ∧ w.auth = []
  blockPresences : ∀ w, w ∉ m.blockPresences
  pendingBytes : m.pendingBytes = 0

theorem Stored.onWire (h : m.Stored) (hlib : ∀ p, lib.prefixFromBytes (lib.bytes p) = .ok p)
    (hdef : ∀ w ∈ m.names, w.defined = true) (hhash : m.Hashed lib)
    (hauths : ∀ w ∈ m.names, LowerHex w.auth) : OnWire LowerHex lib.Rebuilds m := by
  refine ⟨fun w hw => ?_, fun w hw => ?_, fun w b hb => ?_, h.data, hauths⟩
  · exact hdef w (mem_names.mpr (.inl hw))
  · exact ⟨hdef w (mem_names.mpr (.inr (.inr hw))), h.presences w hw⟩
  · obtain ⟨hnew, hwant⟩ := h.blocks w b hb
    exact ⟨hnew, hwant, hlib _, hhash w b hb⟩

/-- A block with a CIDv0 and no auth string is what the receiver makes of its data. -/
theorem Stored.eq_oldBlock (h : m.Stored) (hhash : m.Hashed lib) {v0 : lib.Prefix}
    (hv0 : lib.V0 v0) {w : Want} {b : AuthBlock} (hb : m.blocks.lookup w = some b)
    (hversion : lib.prefixOf b.block.cid = v0) (ha : w.auth = []) :
    w = ⟨lib.newBlockCid b.block.rawData, []⟩ ∧ b = oldBlock lib b.block.rawData := by
  have hcid : b.block.cid = lib.newBlockCid b.block.rawData := by
    have hsum := hhash w b hb
    rw [hversion, hv0.sum] at hsum
    exact (Except.ok.inj hsum).symm
  have hblock : b.block = lib.newBlock b.block.rawData := by
    rw [CidLib.newBlock_eq, ← hcid]
  obtain ⟨hnew, hwant⟩ := h.blocks w b hb
  have hold : b = oldBlock lib b.block.rawData := by
    rw [oldBlock, ← hblock, ← ha]
    exact hnew
  refine ⟨?_, hold⟩
  rw [← hwant]
  exact congrArg AuthBlock.want hold

/-- The image holds the blocks of a plain message and no others.  Two blocks with one hash cannot
get in each other's way: they are kept under one want, so they are the same block. -/
theorem OldImage.blocks_of_plain {m₀ : Message} (hm : OldImage lib m m₀) (h : m.Stored)
    (hhash : m.Hashed lib) {v0 : lib.Prefix} (hv0 : lib.V0 v0) (hplain : m.Plain lib v0)
    (w : Want) : m₀.blocks.lookup w = m.blocks.lookup w := by
  have hown : ∀ {w b}, m.blocks.lookup w = some b →
      w = ⟨lib.newBlockCid b.block.rawData, []⟩ ∧ b = oldBlock lib b.block.rawData :=
    fun hb => h.eq_oldBlock hhash hv0 hb (hplain.blocks _ _ hb).1 (hplain.blocks _ _ hb).2
  have hsub : ∀ b, m₀.blocks.lookup w = some b → m.blocks.lookup w = some b := by
    intro b hb
    obtain ⟨d, ⟨w', b', hb', rfl⟩, rfl, rfl⟩ := hm.only w b hb
    obtain ⟨hw', hold⟩ := hown hb'
    rw [← hw', ← hold]
    exact hb'
  refine Option.ext fun b => ⟨hsub b, fun hb => ?_⟩
  obtain ⟨b', hb'⟩ := GoMap.mem_iff_lookup.mp (hm.every _ ⟨w, b, hb, rfl⟩)
  rw [← (hown hb).1] at hb'
  rw [hb', Option.some.inj ((hsub b' hb').symm.trans hb)]

/-- The image agrees with the message just when the message is plain. -/
theorem OldImage.same_iff {m₀ : Message} (hm : OldImage lib m m₀) (h : m.Stored)
    (hhash : m.Hashed lib) {v0 : lib.Prefix} (hv0 : lib.V0 v0) :
    m₀.Same m ↔ m.Plain lib v0 := by
  constructor
  · intro hs
    refine ⟨fun w b hb => ?_, fun w hw => ?_, hs.pendingBytes.symm.trans hm.pendingBytes⟩
    · obtain ⟨d, -, rfl, rfl⟩ := hm.only w b ((hs.blocks w).trans hb)
      exact ⟨hv0.prefixOf d, rfl⟩
    · obtain ⟨t, ht⟩ := GoMap.mem_iff_lookup.mp hw
      rw [← hs.blockPresences, hm.blockPresences, AList.lookup_empty] at ht
      cases ht
  · intro hplain
    refine ⟨hm.full, hm.wantlist, hm.blocks_of_plain h hhash hv0 hplain, fun w => ?_, ?_⟩
    · rw [hm.blockPresences, AList.lookup_empty, AList.lookup_eq_none.mpr
        (hplain.blockPresences w)]
    · rw [hm.pendingBytes, hplain.pendingBytes]

theorem Same.symm {m m' : Message} (h : m.Same m') : m'.Same m :=
  ⟨h.full.symm, fun w => (h.wantlist w).symm, fun w => (h.blocks w).symm,
    fun w => (h.blockPresences w).symm, h.pendingBytes.symm⟩

theorem Same.trans {m m' m'' : Message} (h : m.Same m') (h' : m'.Same m'') : m.Same m'' :=
  ⟨h.full.trans h'.full, fun w => (h.wantlist w).trans (h'.wantlist w),
    fun w => (h.blocks w).trans (h'.blocks w),
    fun w => (h.blockPresences w).trans (h'.blockPresences w),
    h.pendingBytes.trans h'.pendingBytes⟩

/-- **What the old wire format keeps.**  A message that is built, with defined CIDs, hashed blocks
and a wantlist under lower-case hexadecimal auth strings, arrives as its image; where no two
blocks' data have one hash, the image has exactly the blocks of the data.  If all the auth strings
are hexadecimal, the message that arrives is the one that the new format brings, just when the
message is plain. -/
theorem oldFormat_keeps (lib : CidLib) (hlib : ∀ p, lib.prefixFromBytes (lib.bytes p) = .ok p)
    (v0 : lib.Prefix) (hv0 : lib.V0 v0) (full : Bool) (ops : List BuildOp) (m : Message)
    (hm : m = run build (new full) ops) (hdef : ∀ w ∈ m.names, w.defined = true)
    (hauth : ∀ w ∈ m.wantlist, LowerHex w.auth) (hhash : m.Hashed lib) (o : WireOrders) :
    ∃ m₀, newMessageFromProto lib (m.toProtoV0 o) = .ok m₀ ∧ OldImage lib m m₀ ∧
      ((∀ d d', m.HasData d → m.HasData d' → lib.newBlockCid d = lib.newBlockCid d' → d = d') →
        ∀ w b, m₀.blocks.lookup w = some b ↔
          ∃ d, m.HasData d ∧ w = ⟨lib.newBlockCid d, []⟩ ∧ b = oldBlock lib d) ∧
      ((∀ w ∈ m.names, LowerHex w.auth) → ∀ o' : WireOrders,
        ∃ m₁, newMessageFromProto lib (m.toProtoV1 lib o') = .ok m₁ ∧
          (m₀.Same m₁ ↔ m.Plain lib v0)) := by
  have hstored : m.Stored := hm ▸ stored_built full ops
  have hentries : ∀ w ∈ m.wantlist, w.defined = true ∧ LowerHex w.auth := fun w hw =>
    ⟨hdef w (mem_names.mpr (.inl hw)), hauth w hw⟩
  obtain ⟨m₀, hm₀, himage⟩ := exists_oldImage (hstored.data) hentries o
  refine ⟨m₀, hm₀, himage, himage.lookup_blocks, fun hauths o' => ?_⟩
  obtain ⟨m₁, hm₁, hs⟩ := same_of_onWire (hstored.onWire hlib hdef hhash hauths) o'
  refine ⟨m₁, hm₁, ?_⟩
  rw [← himage.same_iff hstored hhash hv0]
  exact ⟨fun h => h.trans hs, fun h => h.trans hs.symm⟩

theorem v0_plainLib : plainLib.V0 (18, 32) := ⟨fun _ => rfl, fun _ => rfl⟩

/-- An entry, a presence, and a block of the new kind next to one of the old kind with the same
data: one block arrives, and the formats differ. -/
theorem oldFormat_keeps_one_of_two :
    let m := run build (new true) [.addEntry ⟨⟨[1, 85, 7]⟩, [97, 98]⟩ 5 .wantHave true,
      .addBlock ⟨⟨[1, 85, 9]⟩, [9]⟩ [48, 102], .addBlock ⟨⟨[18, 32, 9]⟩, [9]⟩ [],
      .addDontHave ⟨⟨[1, 85, 8]⟩, []⟩]
    m.blocks.len = 2 ∧ ∃ m₀, newMessageFromProto plainLib (m.toProtoV0 .stored) = .ok m₀ ∧
      (∀ w b, m₀.blocks.lookup w = some b ↔ w = ⟨⟨[18, 32, 9]⟩, []⟩ ∧ b = oldBlock plainLib [9]) ∧
      ∃ m₁, newMessageFromProto plainLib (m.toProtoV1 plainLib .stored) = .ok m₁ ∧
        ¬ m₀.Same m₁ := by
  intro m
  have hpair : ∀ w b, m.blocks.lookup w = some b → (w, b) ∈ m.blocks.pairs := fun w b hb =>
    GoMap.mem_pairs.mpr (show m.blocks.lookup (w, b).1 = some (w, b).2 from hb)
  have hdata : ∀ d, m.HasData d ↔ d = [9] := by
    intro d
    constructor
    · rintro ⟨w, b, hb, rfl⟩
      exact (by decide : ∀ e ∈ m.blocks.pairs, e.2.block.rawData = [9]) (w, b) (hpair w b hb)
    · rintro rfl
      exact ⟨⟨⟨[18, 32, 9]⟩, []⟩, oldBlock plainLib [9], rfl, rfl⟩
  have hhash : m.Hashed plainLib := fun w b hb => congrArg Except.ok
    ((by decide : ∀ e ∈ m.blocks.pairs,
      (⟨(plainLib.prefixOf e.2.block.cid).1 :: (plainLib.prefixOf e.2.block.cid).2 ::
        e.2.block.rawData⟩ : Cid) = e.2.block.cid) (w, b) (hpair w b hb))
  obtain ⟨m₀, hm₀, -, hblocks, hnew⟩ := oldFormat_keeps plainLib (fun _ => rfl) (18, 32)
    v0_plainLib true _ m rfl (by decide) (by decide) hhash .stored
  obtain ⟨m₁, hm₁, hsame⟩ := hnew (by decide) .stored
  refine ⟨by decide, m₀, hm₀, fun w b => ?_, m₁, hm₁, fun hs => ?_⟩
  · rw [hblocks fun d d' hd hd' _ => ((hdata d).mp hd).trans ((hdata d').mp hd').symm]
    simp only [hdata, exists_eq_left]
    exact Iff.rfl
  · exact (hsame.mp hs).blockPresences ⟨⟨[1, 85, 8]⟩, []⟩ (by decide)

end Message

end BitswapAuth
