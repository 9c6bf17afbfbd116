/-
# `BitswapAuth.Message` — building a message

The package `message`, the part that builds and reads messages.  A message
holds three tables keyed by want: wantlist entries, blocks, and block
presences.  A block and a presence for the same want exclude each other:
`addBlock` deletes the presence, `addBlockPresence` yields to the block.

The size of an entry is the size of its protobuf form, so the auth string
counts by the bytes its hexadecimal form decodes to.
-/
import BitswapAuth.Wantlist

namespace BitswapAuth

open Lib

/-! ## Sizes on the wire -/

/-- `fromHexChar` of the hexadecimal decoder. -/
def fromHexChar (c : UInt8) : Option UInt8 :=
  if 48 ≤ c ∧ c ≤ 57 then some (c - 48)
  else if 97 ≤ c ∧ c ≤ 102 then some (c - 97 + 10)
  else if 65 ≤ c ∧ c ≤ 70 then some (c - 65 + 10)
  else none

/-- `hex.DecodeString` with its error dropped: the bytes decoded before the
first pair that is not hexadecimal. -/
def hexDecodeString : Bytes → Bytes
  | a :: b :: rest =>
      match fromHexChar a, fromHexChar b with
      | some x, some y => (x * 16 + y) :: hexDecodeString rest
      | _, _ => []
  | _ => []

/-- `sovMessage`: the bytes of a varint. -/
def sovMessage (x : Nat) : Nat := (Nat.log2 (x ||| 1) + 1 + 6) / 7

/-- `uint64` of an `int32`: negative numbers are sign extended. -/
def uint64OfInt32 (p : Int32) : Nat := (BitVec.ofInt 64 p.toInt).toNat

/-- The size of a length-delimited field that is always written. -/
def sizeBytes (l : Nat) : Nat := 1 + l + sovMessage l

/-- The size of a length-delimited field that is left out when empty. -/
def sizeOptBytes (l : Nat) : Nat := if l > 0 then sizeBytes l else 0

/-- The number of an enumerator of `WantType` on the wire. -/
def WantType.toPB : WantType → Nat
  | .wantBlock => 0
  | .wantHave => 1
  | .unknown n _ => uint64OfInt32 n

/-- `message.Entry`: a wantlist entry with its two flags. -/
structure Message.Entry where
  want : Want
  priority : Int32
  wantType : WantType
  cancel : Bool
  sendDontHave : Bool
  deriving DecidableEq

/-- `Entry.Size`: the size of `ToPB`. -/
def Message.Entry.size (e : Message.Entry) : Nat :=
  sizeBytes e.want.cid.str.length
    + (if e.priority ≠ 0 then 1 + sovMessage (uint64OfInt32 e.priority) else 0)
    + (if e.cancel then 2 else 0)
    + (if e.wantType.toPB ≠ 0 then 1 + sovMessage e.wantType.toPB else 0)
    + (if e.sendDontHave then 2 else 0)
    + sizeOptBytes (hexDecodeString e.want.auth).length

/-- `maxEntrySize`: the size of an entry for a CIDv0, of which only the 34 bytes
of its length count, with 120 letters `A` for an auth string. -/
def Message.maxEntrySize : Nat :=
  Message.Entry.size
    ⟨⟨⟨List.replicate 34 0⟩, List.replicate 120 65⟩, 2147483647, .wantHave, true, true⟩

/-- `pb.Message_BlockPresenceType`, open on the wire as `WantType` is. -/
inductive BlockPresenceType where
  | HAVE
  | DONT_HAVE
  | unknown (n : Int32) (h : n ≠ 0 ∧ n ≠ 1)

instance : DecidableEq BlockPresenceType
  | .HAVE, .HAVE | .DONT_HAVE, .DONT_HAVE => isTrue rfl
  | .unknown m _, .unknown n _ => decidable_of_iff (m = n) (by simp)
  | .HAVE, .DONT_HAVE | .HAVE, .unknown _ _ | .DONT_HAVE, .HAVE | .DONT_HAVE, .unknown _ _
  | .unknown _ _, .HAVE | .unknown _ _, .DONT_HAVE => isFalse (by simp)

/-- `BlockPresenceSize`, which measures a `HAVE`. -/
def blockPresenceSize (w : Want) : Nat :=
  sizeBytes w.cid.str.length + sizeOptBytes (hexDecodeString w.auth).length

/-! ## Messages -/

/-- `message.impl`.  An entry of the wantlist is kept under its own want, so a
message never both asks for a want and cancels it. -/
structure Message where
  full : Bool
  wantlist : GoMap Want Message.Entry
  blocks : GoMap Want AuthBlock
  rawData : GoMap Want Bytes
  blockPresences : GoMap Want BlockPresenceType
  pendingBytes : Int32
  keyed : ∀ w e, wantlist.lookup w = some e → e.want = w

namespace Message

/-- `newMsg`. -/
def new (full : Bool) : Message := ⟨full, ∅, ∅, ∅, ∅, 0, fun _ _ h => by simp at h⟩

/-- `impl.Reset`, which leaves `rawData` as it is. -/
def reset (m : Message) (full : Bool) : Message := { new full with rawData := m.rawData }

/-- `impl.Empty`. -/
def empty (m : Message) : Bool :=
  m.blocks.len == 0 && m.wantlist.len == 0 && m.blockPresences.len == 0

/-- `impl.SetPendingBytes`. -/
def setPendingBytes (m : Message) (n : Int32) : Message := { m with pendingBytes := n }

/-- `impl.Remove`. -/
def remove (m : Message) (w : Want) : Message :=
  { m with
    wantlist := m.wantlist.erase w
    keyed := fun k e h => by
      rw [GoMap.lookup_erase_ite] at h
      split at h
      · exact absurd h (by simp)
      · exact m.keyed k e h }

/-- An entry put under its want. -/
def setEntry (m : Message) (w : Want) (e : Entry) (h : e.want = w) : Message :=
  { m with
    wantlist := m.wantlist.insert w e
    keyed := fun k e' h' => by
      rw [GoMap.lookup_insert_ite] at h'
      split at h'
      · rename_i hk; rw [← Option.some.inj h', h, hk]
      · exact m.keyed k e' h' }

/-- What `addEntry` makes of an entry that is already there. -/
def Entry.merge (e : Entry) (priority : Int32) (cancel : Bool) (wantType : WantType)
    (sendDontHave : Bool) : Entry :=
  { want := e.want
    -- the priority changes only if the want is of the same type
    priority := if e.wantType = wantType then priority else e.priority
    -- a want-block overrides a want-have
    wantType := if wantType = .wantBlock ∧ e.wantType = .wantHave then wantType else e.wantType
    -- both flags change only from false to true
    cancel := if cancel then true else e.cancel
    sendDontHave := if sendDontHave then true else e.sendDontHave }

theorem Entry.want_merge {e : Entry} {p : Int32} {c d : Bool} {t : WantType} :
    (e.merge p c t d).want = e.want := rfl

/-- `impl.addEntry`, with the size it adds to the message. -/
def addEntry' (m : Message) (w : Want) (priority : Int32) (cancel : Bool) (wantType : WantType)
    (sendDontHave : Bool) : Message × Nat :=
  match h : m.wantlist.lookup w with
  | some e =>
      (m.setEntry w (e.merge priority cancel wantType sendDontHave)
        (Entry.want_merge.trans (m.keyed w e h)), 0)
  | none =>
      let e : Entry := ⟨w, priority, wantType, cancel, sendDontHave⟩
      (m.setEntry w e rfl, e.size)

/-- `impl.Cancel`. -/
def cancel (m : Message) (w : Want) : Message × Nat := m.addEntry' w 0 true .wantBlock false

/-- `impl.AddEntry`. -/
def addEntry (m : Message) (w : Want) (priority : Int32) (wantType : WantType)
    (sendDontHave : Bool) : Message × Nat :=
  m.addEntry' w priority false wantType sendDontHave

/-- `impl.AddBlock`: the message keys the block by its own CID and the auth
string it is released under. -/
def addBlock (m : Message) (b : Block) (a : Bytes) : Message :=
  { m with
    blockPresences := m.blockPresences.erase ⟨b.cid, a⟩
    blocks := m.blocks.insert ⟨b.cid, a⟩ (AuthBlock.new b a)
    rawData := m.rawData.insert ⟨b.cid, a⟩ b.rawData }

/-- `impl.AddBlockPresence`. -/
def addBlockPresence (m : Message) (w : Want) (t : BlockPresenceType) : Message :=
  if w ∈ m.blocks then m else { m with blockPresences := m.blockPresences.insert w t }

/-- `impl.AddHave`. -/
def addHave (m : Message) (w : Want) : Message := m.addBlockPresence w .HAVE

/-- `impl.AddDontHave`. -/
def addDontHave (m : Message) (w : Want) : Message := m.addBlockPresence w .DONT_HAVE

/-- `impl.Wantlist`, in the order the range visits it. -/
def wantlistEntries (m : Message) (o : RangeOrder) : List Entry := o.range m.wantlist.values

theorem mem_wantlistEntries {m : Message} {o : RangeOrder} {e : Entry} :
    e ∈ m.wantlistEntries o ↔ m.wantlist.lookup e.want = some e := by
  rw [wantlistEntries, RangeOrder.mem_range, GoMap.mem_values]
  constructor
  · rintro ⟨w, hw⟩
    rw [m.keyed w e hw]
    exact hw
  · intro hw
    exact ⟨_, hw⟩

/-- No want has two entries. -/
theorem nodup_wantlistEntries {m : Message} {o : RangeOrder} :
    ((m.wantlistEntries o).map Entry.want).Nodup := by
  have hkeys : m.wantlist.values.map Entry.want = m.wantlist.keys := by
    rw [GoMap.values, List.map_map]
    refine List.map_congr_left fun e he => ?_
    exact m.keyed e.1 e.2 (GoMap.lookup_of_mem_entries he)
  rw [wantlistEntries, ((o.range_perm _).map _).nodup_iff, hkeys]
  exact m.wantlist.keys_nodup

/-! ## The tables after an operation -/

@[simp]
theorem blocks_addBlockPresence (m : Message) (w : Want) (t : BlockPresenceType) :
    (m.addBlockPresence w t).blocks = m.blocks := by
  rw [addBlockPresence]; split <;> rfl

theorem wantlist_addBlockPresence (m : Message) (w : Want) (t : BlockPresenceType) :
    (m.addBlockPresence w t).wantlist = m.wantlist := by
  rw [addBlockPresence]; split <;> rfl

@[simp]
theorem blocks_addHave (m : Message) (w : Want) : (m.addHave w).blocks = m.blocks :=
  blocks_addBlockPresence ..

@[simp]
theorem blocks_addDontHave (m : Message) (w : Want) : (m.addDontHave w).blocks = m.blocks :=
  blocks_addBlockPresence ..

theorem lookup_addBlockPresence {m : Message} {w k : Want} {t : BlockPresenceType} :
    (m.addBlockPresence w t).blockPresences.lookup k =
      if k = w ∧ w ∉ m.blocks then some t else m.blockPresences.lookup k := by
  rw [addBlockPresence]
  split
  · rename_i h; simp [h]
  · rename_i h; rw [GoMap.lookup_insert_ite]; simp [h]

theorem lookup_presences_addBlock {m : Message} {b : Block} {a : Bytes} {k : Want} :
    (m.addBlock b a).blockPresences.lookup k =
      if k = ⟨b.cid, a⟩ then none else m.blockPresences.lookup k :=
  GoMap.lookup_erase_ite

theorem lookup_blocks_addBlock {m : Message} {b : Block} {a : Bytes} {k : Want} :
    (m.addBlock b a).blocks.lookup k =
      if k = ⟨b.cid, a⟩ then some (AuthBlock.new b a) else m.blocks.lookup k :=
  GoMap.lookup_insert_ite

/-- The data that goes on the wire for a block is the block's. -/
def DataOfBlocks (m : Message) : Prop :=
  ∀ w b, m.blocks.lookup w = some b → m.rawData.lookup w = some b.block.rawData

theorem DataOfBlocks.addBlockPresence {m : Message} (h : m.DataOfBlocks) (w : Want)
    (t : BlockPresenceType) : (m.addBlockPresence w t).DataOfBlocks := by
  rw [Message.addBlockPresence]
  split <;> exact h

theorem DataOfBlocks.addBlock {m : Message} (h : m.DataOfBlocks) (b : Block) (a : Bytes) :
    (m.addBlock b a).DataOfBlocks := by
  intro w ab hab
  rw [lookup_blocks_addBlock] at hab
  show (m.rawData.insert ⟨b.cid, a⟩ b.rawData).lookup w = _
  rw [GoMap.lookup_insert_ite]
  split at hab
  · rename_i hw
    rw [if_pos hw, ← Option.some.inj hab]
    rfl
  · rename_i hw
    rw [if_neg hw]
    exact h w ab hab

@[simp]
theorem lookup_wantlist_remove {m : Message} {w k : Want} :
    (m.remove w).wantlist.lookup k = if k = w then none else m.wantlist.lookup k :=
  GoMap.lookup_erase_ite

theorem lookup_setEntry {m : Message} {w k : Want} {e : Entry} {h : e.want = w} :
    (m.setEntry w e h).wantlist.lookup k = if k = w then some e else m.wantlist.lookup k :=
  GoMap.lookup_insert_ite

/-- What is stored for an entry that comes to the one that is there, if one is. -/
def Entry.over : Option Entry → Entry → Entry
  | none, e => e
  | some old, e => old.merge e.priority e.cancel e.wantType e.sendDontHave

theorem wantlist_addEntry' {m : Message} {w : Want} {p : Int32} {c d : Bool} {t : WantType} :
    (m.addEntry' w p c t d).1.wantlist =
      m.wantlist.insert w (Entry.over (m.wantlist.lookup w) ⟨w, p, t, c, d⟩) := by
  rw [addEntry']
  split
  · rename_i e he
    show m.wantlist.insert w _ = _
    rw [he]
    rfl
  · rename_i he
    show m.wantlist.insert w _ = _
    rw [he]
    rfl

theorem lookup_addEntry' {m : Message} {w k : Want} {p : Int32} {c d : Bool} {t : WantType} :
    (m.addEntry' w p c t d).1.wantlist.lookup k =
      if k = w then some (Entry.over (m.wantlist.lookup w) ⟨w, p, t, c, d⟩)
      else m.wantlist.lookup k := by
  rw [wantlist_addEntry', GoMap.lookup_insert_ite]

/-- The size is that of a new entry, and nothing for one that is there. -/
theorem addEntry'_snd {m : Message} {w : Want} {p : Int32} {c d : Bool} {t : WantType} :
    (m.addEntry' w p c t d).2 =
      if w ∈ m.wantlist then 0 else Entry.size ⟨w, p, t, c, d⟩ := by
  rw [addEntry']
  split
  · rename_i e he
    rw [if_pos (GoMap.mem_of_lookup he)]
  · rename_i he
    rw [if_neg (AList.lookup_eq_none.mp he)]

/-- The cancel flag of an entry after `addEntry'`. -/
theorem lookup_addEntry'_cancel {m : Message} {w k : Want} {p : Int32} {c d : Bool} {t : WantType} :
    ((m.addEntry' w p c t d).1.wantlist.lookup k).map Entry.cancel =
      if k = w then some (c || ((m.wantlist.lookup w).map Entry.cancel).getD false)
      else (m.wantlist.lookup k).map Entry.cancel := by
  rw [lookup_addEntry']
  split
  · cases he : m.wantlist.lookup w with
    | none => simp [Entry.over]
    | some e => cases c <;> simp [Entry.over, Entry.merge]
  · rfl

/-- What a message says about a want: nothing, a want (`false`) or a cancel
(`true`). -/
def flag (m : Message) (w : Want) : Option Bool := (m.wantlist.lookup w).map Entry.cancel

/-- An entry of a message asks for its want or cancels it. -/
theorem mem_wantlist_iff_flag {m : Message} {w : Want} :
    w ∈ m.wantlist ↔ m.flag w = some false ∨ m.flag w = some true := by
  rw [GoMap.mem_iff_lookup, flag]
  cases m.wantlist.lookup w with
  | none => simp
  | some et => cases h : et.cancel <;> simp [h]

theorem flag_cancel {m : Message} {c w : Want} :
    (m.cancel c).1.flag w = if w = c then some true else m.flag w := by
  simp [flag, cancel, lookup_addEntry'_cancel]

theorem flag_addEntry {m : Message} {c w : Want} {p : Int32} {t : WantType} {d : Bool} :
    (m.addEntry c p t d).1.flag w = if w = c then some ((m.flag c).getD false) else m.flag w := by
  simp [flag, addEntry, lookup_addEntry'_cancel]

theorem flag_remove {m : Message} {c w : Want} :
    (m.remove c).flag w = if w = c then none else m.flag w := by
  rw [flag, lookup_wantlist_remove]
  split <;> rfl

theorem flag_foldl_cancel (cs : List Want) : ∀ (m : Message) (w : Want),
    (cs.foldl (fun m c => (m.cancel c).1) m).flag w = if w ∈ cs then some true else m.flag w := by
  induction cs with
  | nil => intro m w; simp
  | cons c cs ih =>
      intro m w
      rw [List.foldl_cons, ih, flag_cancel]
      by_cases hc : w = c <;> by_cases hcs : w ∈ cs <;> simp [hc, hcs]

end Message

end BitswapAuth
