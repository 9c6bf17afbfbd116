/-
# `BitswapAuth.Message.Reset` — a message that is used again

The message queue builds every message in one and the same `impl` and calls `Reset` in between.
`Reset` empties three of the four tables.  The fourth, `rawData`, keeps the data of all blocks
that the message ever had, so what is left is not what `newMsg` makes:

    full, wantlist, blocks, blockPresences, pendingBytes    as new
    rawData                                                 as it was

Nobody can tell.  The data of a block is looked up under the wants of `blocks` only, and
`AddBlock` writes both.  `Alike` is the relation that every operation keeps: the same tables, and
in either message the data of every block that it has.
-/
import BitswapAuth.Message.Clone

namespace BitswapAuth

open Lib

namespace Message

/-! ## What can be observed -/

/-- `message.BlockPresence`. -/
structure BlockPresence where
  want : Want
  type : BlockPresenceType

/-- `impl.Blocks`, in the order the range visits them. -/
def getBlocks (m : Message) (o : RangeOrder) : List AuthBlock := o.range m.blocks.values

/-- `impl.BlockPresences`, in the order the range visits them. -/
def getBlockPresences (m : Message) (o : RangeOrder) : List BlockPresence :=
  (o.range m.blockPresences.pairs).map fun e => ⟨e.1, e.2⟩

/-- `impl.Size`, with the orders of its three ranges. -/
def size (m : Message) (o : WireOrders) : Nat :=
  let size := (o.blocks.range m.blocks.values).foldl (fun size block => size + block.size) 0
  let size := (o.presences.range m.blockPresences.keys).foldl
    (fun size c => size + blockPresenceSize c) size
  (o.entries.range m.wantlist.values).foldl (fun size e => size + e.size) size

/-- What an operation returns: the size of an entry. -/
def returned (m : Message) : BuildOp → Option Nat
  | .addEntry w p t d => some (m.addEntry w p t d).2
  | .cancel w => some (m.cancel w).2
  | .remove _ | .addBlock _ _ | .addBlockPresence _ _ | .addHave _ | .addDontHave _
  | .setPendingBytes _ | .reset _ => none

/-- What the operations return, one after the other. -/
def results : Message → List BuildOp → List (Option Nat)
  | _, [] => []
  | m, op :: ops => m.returned op :: results (m.build op) ops

/-- Whatever is asked of the two messages, the answers differ in the order of the ranges only. -/
structure LooksLike (lib : CidLib) (m m' : Message) : Prop where
  wantlist : ∀ o o', (m.wantlistEntries o).Perm (m'.wantlistEntries o')
  blocks : ∀ o o', (m.getBlocks o).Perm (m'.getBlocks o')
  blockPresences : ∀ o o', (m.getBlockPresences o).Perm (m'.getBlockPresences o')
  pendingBytes : m.pendingBytes = m'.pendingBytes
  full : m.full = m'.full
  empty : m.empty = m'.empty
  size : ∀ o o', m.size o = m'.size o'
  protoV0 : ∀ o o', (m.toProtoV0 o).Reorders (m'.toProtoV0 o')
  protoV1 : ∀ o o', (m.toProtoV1 lib o).Reorders (m'.toProtoV1 lib o')

theorem foldl_add_range {α : Type} (f : α → Nat) (o o' : RangeOrder) (l : List α) (n : Nat) :
    (o.range l).foldl (fun n a => n + f a) n = (o'.range l).foldl (fun n a => n + f a) n := by
  have hperm : (o.range l).Perm (o'.range l) := (o.range_perm l).trans (o'.range_perm l).symm
  refine hperm.foldl_eq' (fun a _ b _ k => ?_) n
  exact Nat.add_right_comm k (f a) (f b)

theorem size_order (m : Message) (o o' : WireOrders) : m.size o = m.size o' := by
  rw [size, size, foldl_add_range AuthBlock.size o.blocks o'.blocks,
    foldl_add_range blockPresenceSize o.presences o'.presences,
    foldl_add_range Entry.size o.entries o'.entries]

/-! ## Messages that differ in leftovers -/

/-- The tables are the same but for the data, and both have the data of their blocks. -/
structure Alike (m m' : Message) : Prop where
  full : m.full = m'.full
  wantlist : m.wantlist = m'.wantlist
  blocks : m.blocks = m'.blocks
  blockPresences : m.blockPresences = m'.blockPresences
  pendingBytes : m.pendingBytes = m'.pendingBytes
  data : m.DataOfBlocks
  data' : m'.DataOfBlocks

section

variable {m m' : Message}

theorem alike_reset (m : Message) (full : Bool) : (m.reset full).Alike (new full) where
  full := rfl
  wantlist := rfl
  blocks := rfl
  blockPresences := rfl
  pendingBytes := rfl
  data := m.dataOfBlocks_reset full
  data' := dataOfBlocks_built full []

theorem pendingBytes_addEntry' (m : Message) (w : Want) (p : Int32) (c : Bool) (t : WantType)
    (d : Bool) : (m.addEntry' w p c t d).1.pendingBytes = m.pendingBytes := by
  rw [addEntry']
  split <;> rfl

theorem Alike.addEntry' (h : m.Alike m') (w : Want) (p : Int32) (c : Bool) (t : WantType)
    (d : Bool) : (m.addEntry' w p c t d).1.Alike (m'.addEntry' w p c t d).1 := by
  obtain ⟨hb, -, hp, hf⟩ := m.tables_addEntry' w p c t d
  obtain ⟨hb', -, hp', hf'⟩ := m'.tables_addEntry' w p c t d
  refine ⟨?_, ?_, ?_, ?_, ?_, h.data.addEntry' w p c t d, h.data'.addEntry' w p c t d⟩
  · rw [hf, hf', h.full]
  · rw [wantlist_addEntry', wantlist_addEntry', h.wantlist]
  · rw [hb, hb', h.blocks]
  · rw [hp, hp', h.blockPresences]
  · rw [pendingBytes_addEntry', pendingBytes_addEntry', h.pendingBytes]

theorem Alike.addEntry'_snd (h : m.Alike m') (w : Want) (p : Int32) (c : Bool) (t : WantType)
    (d : Bool) : (m.addEntry' w p c t d).2 = (m'.addEntry' w p c t d).2 := by
  rw [Message.addEntry'_snd, Message.addEntry'_snd, h.wantlist]

theorem Alike.addBlock (h : m.Alike m') (b : Block) (a : Bytes) :
    (m.addBlock b a).Alike (m'.addBlock b a) where
  full := h.full
  wantlist := h.wantlist
  blocks := congrArg (AList.insert _ _) h.blocks
  blockPresences := congrArg (AList.erase _) h.blockPresences
  pendingBytes := h.pendingBytes
  data := h.data.addBlock b a
  data' := h.data'.addBlock b a

theorem Alike.addBlockPresence (h : m.Alike m') (w : Want) (t : BlockPresenceType) :
    (m.addBlockPresence w t).Alike (m'.addBlockPresence w t) := by
  have hd := h.data.addBlockPresence w t
  have hd' := h.data'.addBlockPresence w t
  rw [Message.addBlockPresence] at hd ⊢
  rw [Message.addBlockPresence] at hd' ⊢
  by_cases hw : w ∈ m.blocks
  · rw [if_pos hw, if_pos (h.blocks ▸ hw)]
    exact h
  · rw [if_neg hw, if_neg (h.blocks ▸ hw)]
    rw [if_neg hw] at hd
    rw [if_neg (h.blocks ▸ hw)] at hd'
    exact ⟨h.full, h.wantlist, h.blocks, congrArg (AList.insert _ _) h.blockPresences,
      h.pendingBytes, hd, hd'⟩

theorem alike_build (m m' : Message) (op : BuildOp) (h : m.Alike m') :
    (m.build op).Alike (m'.build op) := by
  cases op with
  | addEntry w p t d => exact h.addEntry' w p false t d
  | cancel w => exact h.addEntry' w 0 true .wantBlock false
  | remove w =>
      exact ⟨h.full, congrArg (AList.erase _) h.wantlist, h.blocks, h.blockPresences,
        h.pendingBytes, h.data, h.data'⟩
  | addBlock b a => exact h.addBlock b a
  | addBlockPresence w t => exact h.addBlockPresence w t
  | addHave w => exact h.addBlockPresence w .HAVE
  | addDontHave w => exact h.addBlockPresence w .DONT_HAVE
  | setPendingBytes n =>
      exact ⟨h.full, h.wantlist, h.blocks, h.blockPresences, rfl, h.data, h.data'⟩
  | reset full =>
      exact ⟨rfl, rfl, rfl, rfl, rfl, m.dataOfBlocks_reset full, m'.dataOfBlocks_reset full⟩

theorem Alike.returned (h : m.Alike m') (op : BuildOp) : m.returned op = m'.returned op := by
  cases op with
  | addEntry w p t d => exact congrArg some (h.addEntry'_snd w p false t d)
  | cancel w => exact congrArg some (h.addEntry'_snd w 0 true .wantBlock false)
  | remove w => rfl
  | addBlock b a => rfl
  | addBlockPresence w t => rfl
  | addHave w => rfl
  | addDontHave w => rfl
  | setPendingBytes n => rfl
  | reset full => rfl

theorem Alike.results (ops : List BuildOp) : ∀ {m m' : Message}, m.Alike m' →
    m.results ops = m'.results ops := by
  induction ops with
  | nil => intros; rfl
  | cons op ops ih =>
      intro m m' h
      rw [Message.results, Message.results, h.returned op, ih (alike_build m m' op h)]

theorem Alike.same (h : m.Alike m') : m.Same m' :=
  ⟨h.full, fun _ => by rw [h.wantlist], fun _ => by rw [h.blocks],
    fun _ => by rw [h.blockPresences], h.pendingBytes⟩

/-- The encodings take the data from the leftovers' table, but only that of blocks. -/
theorem Alike.wireData (h : m.Alike m') : ∀ w ∈ m.blocks, m.wireData w = m'.wireData w := by
  intro w hw
  obtain ⟨b, hb⟩ := GoMap.mem_iff_lookup.mp hw
  rw [h.data.wireData hb, h.data'.wireData (h.blocks ▸ hb)]

theorem Alike.looksLike (h : m.Alike m') (lib : CidLib) : LooksLike lib m m' := by
  have henc := h.same.encodesAs h.wireData lib
  refine ⟨fun o o' => ?_, fun o o' => ?_, fun o o' => ?_, h.pendingBytes, h.full, ?_,
    fun o o' => ?_, henc.v0, henc.v1⟩
  · rw [wantlistEntries, wantlistEntries, h.wantlist]
    exact (o.range_perm _).trans (o'.range_perm _).symm
  · rw [getBlocks, getBlocks, h.blocks]
    exact (o.range_perm _).trans (o'.range_perm _).symm
  · rw [getBlockPresences, getBlockPresences, h.blockPresences]
    exact ((o.range_perm _).trans (o'.range_perm _).symm).map _
  · rw [empty, empty, h.blocks, h.wantlist, h.blockPresences]
  · rw [m.size_order o o', size, size, h.blocks, h.blockPresences, h.wantlist]

end

/-- **A reset message is as good as new**: whatever was done to it before, every sequence of
operations returns the same sizes, and leads to a message of which nothing can be told apart from
the one that the operations make of a new message. -/
theorem reset_as_new (lib : CidLib) (m : Message) (f : Bool) (ops : List BuildOp) :
    (m.reset f).results ops = (new f).results ops ∧
      LooksLike lib (run build (m.reset f) ops) (run build (new f) ops) := by
  have h := m.alike_reset f
  exact ⟨h.results ops, (run_simulates alike_build ops h).looksLike lib⟩

/-- The data of a block from before the reset is still there, and is not sent. -/
example :
    let m := run build (new false) [.addBlock ⟨⟨[1, 85, 9]⟩, [9]⟩ [], .reset false,
      .addBlock ⟨⟨[1, 85, 8]⟩, [8]⟩ []]
    m.rawData.len = 2 ∧ (m.toProtoV0 .stored).blocks = [[8]] := by
  decide

end Message

end BitswapAuth
