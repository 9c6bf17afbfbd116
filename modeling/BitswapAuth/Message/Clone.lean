/-
# `BitswapAuth.Message.Clone` — what a clone says on the wire

`Clone` copies the full flag, the three tables and the pending bytes.  The data of the blocks is
kept twice, in the blocks and in the table the encodings read it from, and the second is not
copied:

    the table        clone      encoding
    wantlist         copied     entries
    blocks           copied     prefixes and auth strings
    blockPresences   copied     presences
    rawData          empty      data

So a clone answers every question about its content as the message does (`same_clone`) and
encodes its blocks with no data.  It encodes as the message does just if the blocks of the message
have no data either (`clone_encodes_iff`).
-/
import BitswapAuth.Message.Wire

namespace BitswapAuth

open Lib

namespace Message

/-- `impl.Clone`, with the orders of its three ranges. -/
def clone (m : Message) (o : WireOrders) : Message :=
  { new m.full with
    wantlist := m.wantlist.copy o.entries
    blocks := m.blocks.copy o.blocks
    blockPresences := m.blockPresences.copy o.presences
    pendingBytes := m.pendingBytes
    keyed := fun w e h => m.keyed w e (GoMap.lookup_copy o.entries m.wantlist w ▸ h) }

theorem same_clone (m : Message) (o : WireOrders) : (m.clone o).Same m :=
  ⟨rfl, GoMap.lookup_copy _ _, GoMap.lookup_copy _ _, GoMap.lookup_copy _ _, rfl⟩

end Message

/-! ## Encodings up to order -/

/-- The messages differ in the order of their repeated fields only. -/
structure PB.Message.Reorders (p p' : PB.Message) : Prop where
  full : p.wantlist.full = p'.wantlist.full
  entries : p.wantlist.entries.Perm p'.wantlist.entries
  blocks : p.blocks.Perm p'.blocks
  payload : p.payload.Perm p'.payload
  blockPresences : p.blockPresences.Perm p'.blockPresences
  pendingBytes : p.pendingBytes = p'.pendingBytes

namespace Message

theorem reorders_toProtoV0 (m : Message) (o o' : WireOrders) :
    (m.toProtoV0 o).Reorders (m.toProtoV0 o') where
  full := rfl
  entries := ((o.entries.range_perm _).trans (o'.entries.range_perm _).symm).map _
  blocks := ((o.blocks.range_perm _).trans (o'.blocks.range_perm _).symm).map _
  payload := .refl _
  blockPresences := .refl _
  pendingBytes := rfl

theorem reorders_toProtoV1 (lib : CidLib) (m : Message) (o o' : WireOrders) :
    (m.toProtoV1 lib o).Reorders (m.toProtoV1 lib o') where
  full := rfl
  entries := ((o.entries.range_perm _).trans (o'.entries.range_perm _).symm).map _
  blocks := .refl _
  payload := ((o.blocks.range_perm _).trans (o'.blocks.range_perm _).symm).map _
  blockPresences := ((o.presences.range_perm _).trans (o'.presences.range_perm _).symm).map _
  pendingBytes := rfl

/-- In both formats the encodings differ in the order of their repeated fields only, and whatever
is encoded is decoded to what an encoding of the other message is decoded to. -/
structure EncodesAs (lib : CidLib) (m m' : Message) : Prop where
  v0 : ∀ o o', (m.toProtoV0 o).Reorders (m'.toProtoV0 o')
  v1 : ∀ o o', (m.toProtoV1 lib o).Reorders (m'.toProtoV1 lib o')
  decoded0 : ∀ o, ∃ o', newMessageFromProto lib (m.toProtoV0 o) =
    newMessageFromProto lib (m'.toProtoV0 o')
  decoded1 : ∀ o, ∃ o', newMessageFromProto lib (m.toProtoV1 lib o) =
    newMessageFromProto lib (m'.toProtoV1 lib o')

section

variable {m m' : Message}

/-- The data that is put on the wire under a want. -/
def wireData (m : Message) (w : Want) : Bytes := (m.rawData.lookup w).getD []

/-- The ranges over one message can visit what the ranges over another with the same content
do. -/
theorem Same.exists_orders (h : m.Same m') (o : WireOrders) :
    ∃ o' : WireOrders, o'.entries.range m'.wantlist.values = o.entries.range m.wantlist.values ∧
      o'.blocks.range m'.blocks.pairs = o.blocks.range m.blocks.pairs ∧
      o'.presences.range m'.blockPresences.pairs = o.presences.range m.blockPresences.pairs := by
  obtain ⟨oe, he⟩ := RangeOrder.exists_range
    ((o.entries.range_perm _).trans (GoMap.values_perm h.wantlist))
  obtain ⟨ob, hb⟩ := RangeOrder.exists_range
    ((o.blocks.range_perm _).trans (GoMap.pairs_perm h.blocks))
  obtain ⟨op, hp⟩ := RangeOrder.exists_range
    ((o.presences.range_perm _).trans (GoMap.pairs_perm h.blockPresences))
  exact ⟨⟨oe, ob, op⟩, he, hb, hp⟩

/-- Messages with the same content and the same data for it have the same encodings. -/
theorem Same.exists_toProto_eq (h : m.Same m')
    (hdata : ∀ w ∈ m.blocks, m.wireData w = m'.wireData w) (lib : CidLib) (o : WireOrders) :
    ∃ o', m.toProtoV0 o = m'.toProtoV0 o' ∧ m.toProtoV1 lib o = m'.toProtoV1 lib o' := by
  obtain ⟨o', he, hb, hp⟩ := h.exists_orders o
  have hmem : ∀ e ∈ o.blocks.range m.blocks.pairs, m.wireData e.1 = m'.wireData e.1 := by
    intro e hin
    exact hdata e.1 (GoMap.mem_of_lookup (GoMap.mem_pairs.mp (RangeOrder.mem_range.mp hin)))
  refine ⟨o', ?_, ?_⟩
  · rw [toProtoV0, toProtoV0, he, hb, h.full]
    congr 1
    exact List.map_congr_left hmem
  · rw [toProtoV1, toProtoV1, he, hb, hp, h.full, h.pendingBytes]
    congr 1
    refine List.map_congr_left fun e hin => ?_
    have hd := hmem e hin
    rw [wireData, wireData] at hd
    rw [blockToPB, blockToPB, hd]

theorem Same.encodesAs (h : m.Same m') (hdata : ∀ w ∈ m.blocks, m.wireData w = m'.wireData w)
    (lib : CidLib) : EncodesAs lib m m' := by
  have heq := h.exists_toProto_eq hdata lib
  refine ⟨fun o o' => ?_, fun o o' => ?_, fun o => ?_, fun o => ?_⟩
  · obtain ⟨o'', h₀, -⟩ := heq o
    exact h₀ ▸ m'.reorders_toProtoV0 o'' o'
  · obtain ⟨o'', -, h₁⟩ := heq o
    exact h₁ ▸ m'.reorders_toProtoV1 lib o'' o'
  · obtain ⟨o'', h₀, -⟩ := heq o
    exact ⟨o'', congrArg _ h₀⟩
  · obtain ⟨o'', -, h₁⟩ := heq o
    exact ⟨o'', congrArg _ h₁⟩

/-! ## The data of a message that is built -/

theorem DataOfBlocks.addEntry' (h : m.DataOfBlocks) (w : Want) (p : Int32) (c : Bool) (t : WantType)
    (d : Bool) : (m.addEntry' w p c t d).1.DataOfBlocks := by
  obtain ⟨hb, hr, -, -⟩ := m.tables_addEntry' w p c t d
  rw [DataOfBlocks, hb, hr]
  exact h

/-- The leftovers of `Reset` are the data of no block. -/
theorem dataOfBlocks_reset (m : Message) (full : Bool) : (m.reset full).DataOfBlocks :=
  fun w _ hb => absurd ((AList.lookup_empty w).symm.trans hb) (by simp)

theorem dataOfBlocks_build (m : Message) (op : BuildOp) (h : m.DataOfBlocks) :
    (m.build op).DataOfBlocks := by
  cases op with
  | addEntry w p t d => exact h.addEntry' w p false t d
  | cancel w => exact h.addEntry' w 0 true .wantBlock false
  | remove w => exact h
  | addBlock b a => exact h.addBlock b a
  | addBlockPresence w t => exact h.addBlockPresence w t
  | addHave w => exact h.addBlockPresence w .HAVE
  | addDontHave w => exact h.addBlockPresence w .DONT_HAVE
  | setPendingBytes n => exact h
  | reset full => exact m.dataOfBlocks_reset full

theorem dataOfBlocks_built (full : Bool) (ops : List BuildOp) :
    (run build (new full) ops).DataOfBlocks :=
  run_invariant dataOfBlocks_build ops fun w b hb => by simp [new] at hb

theorem DataOfBlocks.wireData (h : m.DataOfBlocks) {w : Want} {b : AuthBlock}
    (hb : m.blocks.lookup w = some b) : m.wireData w = b.block.rawData := by
  rw [Message.wireData, h w b hb]
  rfl

end

/-- **A clone on the wire.**  The clone of a message that is built encodes as the message does just
if no block of the message has data. -/
theorem clone_encodes_iff (lib : CidLib) (full : Bool) (ops : List BuildOp) (o : WireOrders) :
    EncodesAs lib ((run build (new full) ops).clone o) (run build (new full) ops) ↔
      ∀ w b, (run build (new full) ops).blocks.lookup w = some b → b.block.rawData = [] := by
  have hdata := dataOfBlocks_built full ops
  have hsame := (run build (new full) ops).same_clone o
  constructor
  · intro h w b hb
    -- the data of the block is among what the old format sends, and a clone sends no data
    have hsent : b.block.rawData ∈ ((run build (new full) ops).toProtoV0 o).blocks := by
      refine List.mem_map.mpr ⟨(w, b), RangeOrder.mem_range.mpr (GoMap.mem_pairs.mpr hb), ?_⟩
      exact hdata.wireData hb
    obtain ⟨e, -, he⟩ := List.mem_map.mp ((h.v0 o o).blocks.mem_iff.mpr hsent)
    exact he.symm
  · intro h
    refine hsame.encodesAs (fun w hw => ?_) lib
    rw [GoMap.mem_iff_lookup] at hw
    obtain ⟨b, hb⟩ := hw
    rw [hsame.blocks] at hb
    rw [hdata.wireData hb, h w b hb]
    rfl

/-- The clone of a message with a block is encoded with no data in either format; in the second it
is decoded to a block of another CID, that of no data. -/
theorem clone_sends_no_data :
    let m := run build (new false) [.addBlock ⟨⟨[1, 85, 9]⟩, [9]⟩ []]
    let c := m.clone .stored
    (m.toProtoV0 .stored).blocks = [[9]] ∧ (c.toProtoV0 .stored).blocks = [[]] ∧
      (newMessageFromProto plainLib (m.toProtoV1 plainLib .stored)).toOption.map
        (fun m' => m'.blocks.keys) = some [⟨⟨[1, 85, 9]⟩, []⟩] ∧
      (newMessageFromProto plainLib (c.toProtoV1 plainLib .stored)).toOption.map
        (fun m' => m'.blocks.keys) = some [⟨⟨[1, 85]⟩, []⟩] := by
  decide

end Message

end BitswapAuth
