/-
# `BitswapAuth.Message.Unmarshal` — a message is read from bytes

`Unmarshal` of the five protobuf types and `skipMessage`.  The generated code goes
through the slice by an index: it reads a tag, then what the field is to hold, and
goes on behind it; of a field it does not know it skips the value, groups with
what they contain.  Lengths come from the sender, are signed, and are added to the
index in 64 bits, so each is checked three times before it is used.

The five functions are one loop over the fields of a type (`unmarshalLoop`), each with its
own table.  Below it stands the same function on the bytes that are left, without
an index (`fieldStep`), and the loop returns what that one gives: it never indexes
out of range, it never runs into the code taken to be unreachable, and it ends
(`matches_unmarshal`).

The stack of the goroutine is left out.  `skipMessage` calls itself for each group in a group, with
no limit, so groups nested deep enough (each takes one byte to open) overflow it.
-/
import BitswapAuth.Lib.Slice
import BitswapAuth.Lib.Records
import BitswapAuth.Message.Wire

namespace BitswapAuth

open Lib

variable {E σ : Type} {w : Nat}

/-- The errors of `Unmarshal`. -/
inductive UnmarshalErr (E : Type) where
  /-- `ErrIntOverflowMessage`, "proto: integer overflow". -/
  | errIntOverflowMessage
  /-- `ErrInvalidLengthMessage`, "proto: negative length found during unmarshaling". -/
  | errInvalidLengthMessage
  /-- `io.ErrUnexpectedEOF`. -/
  | errUnexpectedEOF
  /-- `fmt.Errorf`, with its text. -/
  | errorf (text : String)
  /-- An error of `cid.Cast`. -/
  | cid (e : E)

/-! ## The source -/

/-- The loop that reads a varint, once for each shift. -/
def varintLoop (dAtA : Bytes) : (shifts : List Nat) → (v : BitVec w) → (iNdEx : Nat) →
    Outcome (UnmarshalErr E) (BitVec w × Nat)
  | [], _, _ => .error (.err .errIntOverflowMessage)
  | shift :: shifts, v, iNdEx =>
      if iNdEx ≥ dAtA.length then .error (.err .errUnexpectedEOF)
      else do
        let b ← index dAtA iNdEx
        if b < 128 then return (v ||| Varint.digit w b shift, iNdEx + 1)
        else varintLoop dAtA shifts (v ||| Varint.digit w b shift) (iNdEx + 1)

/-- A varint into a variable of `w` bits: the shift is 0, 7 and so on, and at 70 the
number is too long. -/
def readVarint (w : Nat) (dAtA : Bytes) (iNdEx : Nat) :
    Outcome (UnmarshalErr E) (BitVec w × Nat) :=
  varintLoop dAtA Varint.shifts 0 iNdEx

/-- `int(wire & 0x7)`. -/
def wireTypeOf (wire : BitVec 64) : Nat := (wire &&& 7).toNat

/-- `int32(wire >> 3)`. -/
def fieldNumOf (wire : BitVec 64) : Int := ((wire >>> 3).setWidth 32).toInt

mutual

/-- `skipMessage`.  The loop of the source returns in its first round, and there is no
round for an empty slice.  It calls itself for a group in a group; how deep the stack lets it do
that is not modelled. -/
def skipMessage : (rounds : Nat) → (dAtA : Bytes) → Outcome (UnmarshalErr E) Int
  | 0, _ => .error .spent
  | n + 1, dAtA =>
      if dAtA.length = 0 then .error .panic
      else do
        let tag ← readVarint 64 dAtA 0
        match wireTypeOf tag.1 with
        | 0 => do
            let v ← readVarint 64 dAtA tag.2
            return v.2
        | 1 => return wrap (tag.2 + 8)
        | 2 => do
            let length ← readVarint 64 dAtA tag.2
            if length.1.toInt < 0 then .error (.err .errInvalidLengthMessage)
            else if wrap (length.2 + length.1.toInt) < 0 then
              .error (.err .errInvalidLengthMessage)
            else return wrap (length.2 + length.1.toInt)
        | 3 => do
            let iNdEx ← skipGroup n dAtA tag.2
            return iNdEx
        | 4 => return tag.2
        | 5 => return wrap (tag.2 + 4)
        | wireType => .error (.err (.errorf s!"proto: illegal wireType {wireType}"))

/-- The loop of `skipMessage` over the fields of a group. -/
def skipGroup : (rounds : Nat) → (dAtA : Bytes) → (start : Nat) →
    Outcome (UnmarshalErr E) Nat
  | 0, _, _ => .error .spent
  | n + 1, dAtA, start => do
      let inner ← readVarint 64 dAtA start
      if wireTypeOf inner.1 = 4 then return inner.2
      else do
        let rest ← slice dAtA start dAtA.length
        let next ← skipMessage n rest
        if wrap (start + next) < 0 then .error (.err .errInvalidLengthMessage)
        else skipGroup n dAtA (wrap (start + next)).toNat

end

/-- A case of the switch: the field's name in the error texts, and what is done with its
value. -/
inductive Field (E σ : Type) where
  | int32 (name : String) (set : Int32 → σ → σ)
  | bool (name : String) (set : Bool → σ → σ)
  | bytes (name : String) (set : Bytes → σ → Outcome (UnmarshalErr E) σ)

/-- The value of a length-delimited field, and the index behind it. -/
def readDelimited (dAtA : Bytes) (iNdEx : Nat) : Outcome (UnmarshalErr E) (Bytes × Nat) := do
  let length ← readVarint 64 dAtA iNdEx
  if length.1.toInt < 0 then .error (.err .errInvalidLengthMessage)
  else if wrap (length.2 + length.1.toInt) < 0 then .error (.err .errInvalidLengthMessage)
  else if wrap (length.2 + length.1.toInt) > dAtA.length then .error (.err .errUnexpectedEOF)
  else do
    let postIndex := (wrap (length.2 + length.1.toInt)).toNat
    let sub ← slice dAtA length.2 postIndex
    return (sub, postIndex)

/-- `fmt.Errorf` for a field of another wire type. -/
def wrongWireType (wireType : Nat) (field : String) : UnmarshalErr E :=
  .errorf s!"proto: wrong wireType = {wireType} for field {field}"

/-- The default case of the switch: back to the tag, and over the field. -/
def skipField (dAtA : Bytes) (preIndex : Nat) (m : σ) : Outcome (UnmarshalErr E) (σ × Nat) := do
  let rest ← slice dAtA preIndex dAtA.length
  let skippy ← skipMessage (2 * rest.length) rest
  if skippy < 0 then .error (.err .errInvalidLengthMessage)
  else if wrap (preIndex + skippy) < 0 then .error (.err .errInvalidLengthMessage)
  else if wrap (preIndex + skippy) > dAtA.length then .error (.err .errUnexpectedEOF)
  else return (m, (wrap (preIndex + skippy)).toNat)

/-- One round of `Unmarshal`, for the type of that name with those fields. -/
def unmarshalField (name : String) (field : Int → Option (Field E σ)) (dAtA : Bytes) (m : σ)
    (preIndex : Nat) : Outcome (UnmarshalErr E) (σ × Nat) := do
  let tag ← readVarint 64 dAtA preIndex
  let fieldNum := fieldNumOf tag.1
  let wireType := wireTypeOf tag.1
  if wireType = 4 then
    .error (.err (.errorf s!"proto: {name}: wiretype end group for non-group"))
  else if fieldNum ≤ 0 then
    .error (.err (.errorf
      s!"proto: {name}: illegal tag {fieldNum} (wire type {tag.1.toNat})"))
  else match field fieldNum with
    | some (.int32 fieldName set) =>
        if wireType ≠ 0 then .error (.err (wrongWireType wireType fieldName))
        else do
          let v ← readVarint 32 dAtA tag.2
          return (set (Int32.ofBitVec v.1) m, v.2)
    | some (.bool fieldName set) =>
        if wireType ≠ 0 then .error (.err (wrongWireType wireType fieldName))
        else do
          let v ← readVarint 64 dAtA tag.2
          return (set (v.1 ≠ 0) m, v.2)
    | some (.bytes fieldName set) =>
        if wireType ≠ 2 then .error (.err (wrongWireType wireType fieldName))
        else do
          let sub ← readDelimited dAtA tag.2
          let m ← set sub.1 m
          return (m, sub.2)
    | none => skipField dAtA preIndex m

/-- The loop of `Unmarshal`. -/
def unmarshalLoop (name : String) (field : Int → Option (Field E σ)) (dAtA : Bytes) :
    (rounds : Nat) → σ → (iNdEx : Nat) → Outcome (UnmarshalErr E) σ
  | 0, m, iNdEx =>
      if iNdEx < dAtA.length then .error .spent
      else if iNdEx > dAtA.length then .error (.err .errUnexpectedEOF)
      else return m
  | n + 1, m, iNdEx =>
      if iNdEx < dAtA.length then do
        let x ← unmarshalField name field dAtA m iNdEx
        unmarshalLoop name field dAtA n x.1 x.2
      else if iNdEx > dAtA.length then .error (.err .errUnexpectedEOF)
      else return m

/-- `Unmarshal` of a type, into a value of it. -/
def unmarshal (name : String) (field : Int → Option (Field E σ)) (m : σ) (dAtA : Bytes) :
    Outcome (UnmarshalErr E) σ :=
  unmarshalLoop name field dAtA dAtA.length m 0

/-- `Message_Wantlist_WantType` of a number. -/
def WantType.ofInt32 (n : Int32) : WantType :=
  if h₀ : n = 0 then .wantBlock
  else if h₁ : n = 1 then .wantHave
  else .unknown n ⟨h₀, h₁⟩

/-- `Message_BlockPresenceType` of a number. -/
def BlockPresenceType.ofInt32 (n : Int32) : BlockPresenceType :=
  if h₀ : n = 0 then .HAVE
  else if h₁ : n = 1 then .DONT_HAVE
  else .unknown n ⟨h₀, h₁⟩

/-- `pb.Cid.Unmarshal`, by `cid.Cast`. -/
def Cid.unmarshal (cast : Bytes → Except E Cid) (data : Bytes) : Outcome (UnmarshalErr E) Cid :=
  match cast data with
  | .ok c => .ok c
  | .error e => .error (.err (.cid e))

namespace PB

/-- The zero values. -/
def Entry.zero : PB.Entry := ⟨⟨[]⟩, 0, false, .wantBlock, false, []⟩

@[inherit_doc Entry.zero]
def Wantlist.zero : PB.Wantlist := ⟨[], false⟩

@[inherit_doc Entry.zero]
def Block.zero : PB.Block := ⟨[], [], []⟩

@[inherit_doc Entry.zero]
def BlockPresence.zero : PB.BlockPresence := ⟨⟨[]⟩, .HAVE, []⟩

@[inherit_doc Entry.zero]
def Message.zero : PB.Message := ⟨Wantlist.zero, [], [], [], 0⟩

variable (cast : Bytes → Except E Cid)

/-- The switch of `Message_Wantlist_Entry.Unmarshal`. -/
def Entry.field : Int → Option (Field E PB.Entry)
  | 1 => some (.bytes "Block" fun b m => do
      let c ← Cid.unmarshal cast b
      return { m with block := c })
  | 2 => some (.int32 "Priority" fun v m => { m with priority := v })
  | 3 => some (.bool "Cancel" fun v m => { m with cancel := v })
  | 4 => some (.int32 "WantType" fun v m => { m with wantType := .ofInt32 v })
  | 5 => some (.bool "SendDontHave" fun v m => { m with sendDontHave := v })
  | 6 => some (.bytes "Auth" fun b m => .ok { m with auth := b })
  | _ => none

/-- `Message_Wantlist_Entry.Unmarshal`. -/
def Entry.unmarshal (m : PB.Entry) (dAtA : Bytes) : Outcome (UnmarshalErr E) PB.Entry :=
  BitswapAuth.unmarshal "Entry" (Entry.field cast) m dAtA

/-- The switch of `Message_Wantlist.Unmarshal`. -/
def Wantlist.field : Int → Option (Field E PB.Wantlist)
  | 1 => some (.bytes "Entries" fun b m => do
      let e ← Entry.zero.unmarshal cast b
      return { m with entries := m.entries ++ [e] })
  | 2 => some (.bool "Full" fun v m => { m with full := v })
  | _ => none

/-- `Message_Wantlist.Unmarshal`. -/
def Wantlist.unmarshal (m : PB.Wantlist) (dAtA : Bytes) : Outcome (UnmarshalErr E) PB.Wantlist :=
  BitswapAuth.unmarshal "Wantlist" (Wantlist.field cast) m dAtA

/-- The switch of `Message_Block.Unmarshal`. -/
def Block.field : Int → Option (Field E PB.Block)
  | 1 => some (.bytes "Prefix" fun b m => .ok { m with cidPrefix := b })
  | 2 => some (.bytes "Data" fun b m => .ok { m with data := b })
  | 3 => some (.bytes "Auth" fun b m => .ok { m with auth := b })
  | _ => none

/-- `Message_Block.Unmarshal`. -/
def Block.unmarshal (m : PB.Block) (dAtA : Bytes) : Outcome (UnmarshalErr E) PB.Block :=
  BitswapAuth.unmarshal "Block" Block.field m dAtA

/-- The switch of `Message_BlockPresence.Unmarshal`. -/
def BlockPresence.field : Int → Option (Field E PB.BlockPresence)
  | 1 => some (.bytes "Cid" fun b m => do
      let c ← Cid.unmarshal cast b
      return { m with cid := c })
  | 2 => some (.int32 "Type" fun v m => { m with type := .ofInt32 v })
  | 3 => some (.bytes "Auth" fun b m => .ok { m with auth := b })
  | _ => none

/-- `Message_BlockPresence.Unmarshal`. -/
def BlockPresence.unmarshal (m : PB.BlockPresence) (dAtA : Bytes) :
    Outcome (UnmarshalErr E) PB.BlockPresence :=
  BitswapAuth.unmarshal "BlockPresence" (BlockPresence.field cast) m dAtA

/-- The switch of `Message.Unmarshal`.  A second wantlist is read into the first. -/
def Message.field : Int → Option (Field E PB.Message)
  | 1 => some (.bytes "Wantlist" fun b m => do
      let wl ← m.wantlist.unmarshal cast b
      return { m with wantlist := wl })
  | 2 => some (.bytes "Blocks" fun b m => .ok { m with blocks := m.blocks ++ [b] })
  | 3 => some (.bytes "Payload" fun b m => do
      let e ← Block.zero.unmarshal b
      return { m with payload := m.payload ++ [e] })
  | 4 => some (.bytes "BlockPresences" fun b m => do
      let e ← BlockPresence.zero.unmarshal cast b
      return { m with blockPresences := m.blockPresences ++ [e] })
  | 5 => some (.int32 "PendingBytes" fun v m => { m with pendingBytes := v })
  | _ => none

/-- `Message.Unmarshal`. -/
def Message.unmarshal (m : PB.Message) (dAtA : Bytes) : Outcome (UnmarshalErr E) PB.Message :=
  BitswapAuth.unmarshal "Message" (Message.field cast) m dAtA

end PB

/-! ## The same without an index -/

/-- The number at the head of the bytes. -/
def varint (w : Nat) : Parser UInt8 (BitVec w) := Varint.decode Varint.shifts 0

/-- A length and as many bytes, if the length is not negative. -/
def delimited : Parser UInt8 Bytes :=
  (varint 64).seq fun length =>
    if length.toNat < 9223372036854775808 then Parser.take length.toNat else fun _ => none

mutual

/-- The value behind a tag that is not looked at. -/
def skipValue : (rounds : Nat) → (wire : BitVec 64) → Parser UInt8 Unit
  | 0, _ => fun _ => none
  | n + 1, wire =>
      match wireTypeOf wire with
      | 0 => (varint 64).filterMap fun _ => some ()
      | 1 => (Parser.take 8).filterMap fun _ => some ()
      | 2 => delimited.filterMap fun _ => some ()
      | 3 => skipBody n
      | 4 => fun bs => some ((), bs)
      | 5 => (Parser.take 4).filterMap fun _ => some ()
      | _ => fun _ => none

/-- The fields of a group, with the tag that ends it. -/
def skipBody : (rounds : Nat) → Parser UInt8 Unit
  | 0 => fun _ => none
  | n + 1 => (varint 64).seq fun inner =>
      if wireTypeOf inner = 4 then fun bs => some ((), bs)
      else (skipValue n inner).seq fun _ => skipBody n

end

/-- The value of an outcome. -/
def okValue {A F : Type} : Except F A → Option A
  | .ok a => some a
  | .error _ => none

/-- The value of a field that is known. -/
def Field.parse (wireType : Nat) (m : σ) : Field E σ → Parser UInt8 σ
  | .int32 _ set =>
      if wireType ≠ 0 then fun _ => none
      else (varint 32).filterMap fun v => some (set (Int32.ofBitVec v) m)
  | .bool _ set =>
      if wireType ≠ 0 then fun _ => none
      else (varint 64).filterMap fun v => some (set (v ≠ 0) m)
  | .bytes _ set =>
      if wireType ≠ 2 then fun _ => none
      else delimited.filterMap fun b => okValue (set b m)

/-- One field, read into a value of the type. -/
def fieldStep (rounds : Nat) (field : Int → Option (Field E σ)) (m : σ) : Parser UInt8 σ :=
  (varint 64).seq fun wire =>
    if wireTypeOf wire = 4 ∨ fieldNumOf wire ≤ 0 then fun _ => none
    else match field (fieldNumOf wire) with
      | some f => f.parse (wireTypeOf wire) m
      | none => (skipValue rounds wire).filterMap fun _ => some m

theorem local_varint (w : Nat) : Parser.Local (varint w) := Parser.local_decode _ _

theorem local_delimited : Parser.Local delimited :=
  (local_varint 64).seq fun _ =>
    Parser.local_ite (fun _ => Parser.local_take _) fun _ => Parser.local_none

theorem local_unit : Parser.Local (fun bs => some ((), bs) : Parser UInt8 Unit) := by
  intro bs a rest h
  obtain ⟨-, rfl⟩ := Prod.mk.inj (Option.some.inj h)
  exact ⟨[], rfl, fun more => rfl⟩

mutual

theorem local_skipValue : ∀ (n : Nat) (wire : BitVec 64), Parser.Local (skipValue n wire)
  | 0, _ => Parser.local_none
  | n + 1, wire => by
      rw [skipValue]
      split
      · exact (local_varint 64).filterMap
      · exact (Parser.local_take 8).filterMap
      · exact local_delimited.filterMap
      · exact local_skipBody n
      · exact local_unit
      · exact (Parser.local_take 4).filterMap
      · exact Parser.local_none

theorem local_skipBody : ∀ n : Nat, Parser.Local (skipBody n)
  | 0 => Parser.local_none
  | n + 1 => by
      rw [skipBody]
      refine (local_varint 64).seq fun inner => Parser.local_ite (fun _ => local_unit) fun _ => ?_
      exact (local_skipValue n inner).seq fun _ => local_skipBody n

end

theorem Field.local_parse (wireType : Nat) (m : σ) (f : Field E σ) :
    Parser.Local (f.parse wireType m) := by
  cases f with
  | int32 _ set =>
      exact Parser.local_ite (fun _ => Parser.local_none) fun _ => (local_varint 32).filterMap
  | bool _ set =>
      exact Parser.local_ite (fun _ => Parser.local_none) fun _ => (local_varint 64).filterMap
  | bytes _ set =>
      exact Parser.local_ite (fun _ => Parser.local_none) fun _ => local_delimited.filterMap

theorem steps_fieldStep (n : Nat) (field : Int → Option (Field E σ)) :
    Steps (fieldStep n field) where
  local_step m := by
    refine (local_varint 64).seq fun wire =>
      Parser.local_ite (fun _ => Parser.local_none) fun _ => ?_
    split
    · exact Field.local_parse _ m _
    · exact (local_skipValue n wire).filterMap
  nil _ := rfl

/-! ## The code returns what these give -/

/-- A slice as long as slices get: the code adds eight to an index without a look. -/
def Addressable (d : Bytes) : Prop := d.length + 8 < 9223372036854775808

/-- The same value, and the index where the rest begins. -/
def At {A : Type} (d : Bytes) (x : A × Nat) (y : A × Bytes) : Prop :=
  x.1 = y.1 ∧ x.2 ≤ d.length ∧ y.2 = d.drop x.2

/-- The index where the rest begins. -/
def Behind (d : Bytes) (i : Nat) (y : Unit × Bytes) : Prop := i ≤ d.length ∧ y.2 = d.drop i

theorem matches_varintLoop (d : Bytes) : ∀ (ss : List Nat) (v : BitVec w) (i : Nat),
    Matches (At d) (varintLoop d ss v i : Outcome (UnmarshalErr E) _)
      (Varint.decode ss v (d.drop i))
  | [], v, i => matches_err _ _
  | s :: ss, v, i => by
      rw [varintLoop]
      refine Matches.check (fun hi => ?_) fun hi => ?_
      · rw [List.drop_eq_nil_of_le hi]
        rfl
      · have hlt : i < d.length := Nat.lt_of_not_le hi
        rw [index_of_lt hlt, List.drop_eq_getElem_cons hlt, Varint.decode]
        show Matches (At d) (if d[i] < 128 then _ else _) _
        by_cases hb : d[i] < 128
        · rw [if_pos hb, if_pos hb]
          exact ⟨rfl, hlt, rfl⟩
        · rw [if_neg hb, if_neg hb]
          exact matches_varintLoop d ss _ _

theorem matches_readVarint (w : Nat) (d : Bytes) (i : Nat) :
    Matches (At d) (readVarint w d i : Outcome (UnmarshalErr E) _) (varint w (d.drop i)) :=
  matches_varintLoop d _ _ _

/-- The sum of an index and a length, as the checks see it. -/
theorem sum_cases {d : Bytes} (hd : Addressable d) {i : Nat} (hi : i ≤ d.length) {n : Nat}
    (hn : n < 9223372036854775808) :
    (i + n ≤ d.length ∧ wrap (i + n) = i + n) ∨
      (d.length < i + n ∧ (wrap (i + n) < 0 ∨ (d.length : Int) < wrap (i + n))) := by
  unfold Addressable at hd
  rcases Nat.lt_or_ge (i + n) 9223372036854775808 with hlt | hge
  · have hwrap : wrap ((i : Int) + n) = i + n := wrap_eq (by omega) (by omega)
    omega
  · have hneg : wrap ((i : Int) + n) < 0 := wrap_neg (by omega) (by omega)
    omega

theorem toInt_neg_iff (v : BitVec 64) : v.toInt < 0 ↔ 9223372036854775808 ≤ v.toNat := by
  rw [BitVec.toInt_eq_toNat_cond]
  have := v.isLt
  split <;> omega

theorem toInt_of_lt {v : BitVec 64} (h : v.toNat < 9223372036854775808) : v.toInt = v.toNat := by
  rw [BitVec.toInt_eq_toNat_cond, if_pos (by omega)]

theorem matches_readDelimited {d : Bytes} (hd : Addressable d) (i : Nat) :
    Matches (At d) (readDelimited d i : Outcome (UnmarshalErr E) _) (delimited (d.drop i)) := by
  refine (matches_readVarint 64 d i).bind ?_
  rintro ⟨v, j⟩ ⟨_, _⟩ - - ⟨rfl, hj, rfl⟩
  dsimp only at hj ⊢
  refine Matches.check (fun hneg => ?_) fun hneg => ?_
  · have hge := (toInt_neg_iff v).mp hneg
    rw [if_neg (Nat.not_lt.mpr hge)]
  · have hlt : v.toNat < 9223372036854775808 :=
      Nat.lt_of_not_le fun hge => hneg ((toInt_neg_iff v).mpr hge)
    rw [if_pos hlt, toInt_of_lt hlt, Parser.take, List.length_drop]
    rcases sum_cases hd hj hlt with ⟨hin, hwrap⟩ | ⟨hout, hwrap⟩
    · have hpost : ((j : Int) + v.toNat).toNat = j + v.toNat := by omega
      rw [hwrap, if_neg (by omega), if_neg (by omega), if_pos (by omega), hpost,
        slice_of_le (by omega) hin]
      refine ⟨?_, hin, ?_⟩
      · show (d.take (j + v.toNat)).drop j = (d.drop j).take v.toNat
        rw [List.drop_take, Nat.add_sub_cancel_left]
      · exact List.drop_drop
    · rw [if_neg (show ¬ v.toNat ≤ d.length - j by omega)]
      exact Matches.check (fun _ => rfl) fun _ => Matches.check (fun _ => rfl) fun _ => by omega

/-- The index that `skipMessage` returns is an `int`, not negative; its callers see for
themselves whether it is past the end. -/
def landed (d : Bytes) (x : Outcome (UnmarshalErr E) Int) : Outcome (UnmarshalErr E) Nat := do
  let k ← x
  if k < 0 ∨ 9223372036854775808 ≤ k then .error .panic
  else if k > d.length then .error (.err .errUnexpectedEOF)
  else return k.toNat

theorem landed_ok (d : Bytes) (k : Int) :
    landed d (.ok k : Outcome (UnmarshalErr E) Int) =
      if k < 0 ∨ 9223372036854775808 ≤ k then .error .panic
      else if k > d.length then .error (.err .errUnexpectedEOF) else .ok k.toNat :=
  rfl

theorem landed_bind {A : Type} (d : Bytes) (x : Outcome (UnmarshalErr E) A)
    (f : A → Outcome (UnmarshalErr E) Int) :
    landed d (x >>= f) = x >>= fun a => landed d (f a) := by
  cases x <;> rfl

theorem landed_of_le {d : Bytes} (hd : Addressable d) {k : Nat} (h : k ≤ d.length) :
    landed d (.ok (k : Int) : Outcome (UnmarshalErr E) Int) = .ok k := by
  unfold Addressable at hd
  rw [landed_ok, if_neg (by omega), if_neg (by omega), Int.toNat_natCast]

theorem matches_pass {d : Bytes} (hd : Addressable d) {i n : Nat} (hi : i ≤ d.length)
    (hn : n < 9223372036854775808) (hpos : 0 ≤ wrap (i + n)) :
    Matches (Behind d) (landed d (.ok (wrap (i + n)) : Outcome (UnmarshalErr E) Int))
      ((Parser.take n).filterMap (fun _ => some ()) (d.drop i)) := by
  have hint := wrap_lt (i + n)
  rw [Parser.filterMap, Parser.take, List.length_drop]
  rcases sum_cases hd hi hn with ⟨hin, hwrap⟩ | ⟨hout, hwrap⟩
  · have hcast : (i : Int) + n = ((i + n : Nat) : Int) := by omega
    rw [hwrap, hcast, landed_of_le hd hin, if_pos (by omega)]
    exact ⟨hin, List.drop_drop⟩
  · rw [if_neg (show ¬ n ≤ d.length - i by omega), landed_ok, if_neg (by omega)]
    exact Matches.check (fun _ => rfl) fun _ => by omega

theorem matches_fixed {d : Bytes} (hd : Addressable d) {i n : Nat} (hi : i ≤ d.length)
    (hn : n ≤ 8) :
    Matches (Behind d) (landed d (.ok (wrap (i + n)) : Outcome (UnmarshalErr E) Int))
      ((Parser.take n).filterMap (fun _ => some ()) (d.drop i)) := by
  have hsum : wrap ((i : Int) + n) = i + n := by
    unfold Addressable at hd
    exact wrap_eq (by omega) (by omega)
  exact matches_pass hd hi (by omega) (by omega)

theorem matches_landed {d : Bytes} (hd : Addressable d) {x : Outcome (UnmarshalErr E) Nat}
    {y : Option (Unit × Bytes)} (h : Matches (Behind d) x y) :
    Matches (Behind d) (landed d (x >>= fun k => .ok (k : Int))) y := by
  rw [landed_bind]
  match x, y, h with
  | .ok k, some _, h =>
      show Matches (Behind d) (landed d (.ok (k : Int))) _
      rw [landed_of_le hd h.1]
      exact h
  | .error (.err e), none, _ => exact matches_err _ e

/-- A length, and as many bytes that are passed over. -/
theorem matches_length {d : Bytes} (hd : Addressable d) (i : Nat) :
    Matches (Behind d) (landed d (readVarint 64 d i >>= fun length =>
        if length.1.toInt < 0 then .error (.err .errInvalidLengthMessage)
        else if wrap (length.2 + length.1.toInt) < 0 then .error (.err .errInvalidLengthMessage)
        else .ok (wrap (length.2 + length.1.toInt)) : Outcome (UnmarshalErr E) Int))
      (delimited.filterMap (fun _ => some ()) (d.drop i)) := by
  rw [landed_bind, delimited, Parser.filterMap_seq]
  refine (matches_readVarint 64 d i).bind ?_
  rintro ⟨v, j⟩ ⟨_, _⟩ - - ⟨rfl, hj, rfl⟩
  dsimp only at hj ⊢
  by_cases hneg : v.toInt < 0
  · have hge := (toInt_neg_iff v).mp hneg
    rw [if_pos hneg, if_neg (Nat.not_lt.mpr hge)]
    exact matches_err _ _
  · have hlt : v.toNat < 9223372036854775808 :=
      Nat.lt_of_not_le fun hge => hneg ((toInt_neg_iff v).mpr hge)
    rw [if_neg hneg, if_pos hlt, toInt_of_lt hlt]
    by_cases hwrap : wrap ((j : Int) + v.toNat) < 0
    · have hout : ¬ v.toNat ≤ d.length - j := by
        have hsum := sum_cases hd hj hlt
        omega
      rw [if_pos hwrap, Parser.filterMap, Parser.take, List.length_drop, if_neg hout]
      exact matches_err _ _
    · rw [if_neg hwrap]
      exact matches_pass hd hj hlt (by omega)

/-- An index that `skipMessage` returned for the rest of a slice: it is added to the
index of the rest, and the sum is within the slice or the checks find that it is not. -/
theorem landed_cases {d : Bytes} (hd : Addressable d) {i : Nat} (hi : i ≤ d.length)
    {x : Outcome (UnmarshalErr E) Int} {y : Option (Unit × Bytes)}
    (hx : Matches (Behind (d.drop i)) (landed (d.drop i) x) y) :
    (∃ e, x = .error (.err e) ∧ y = none) ∨
      (∃ n : Nat, x = .ok n ∧ i + n ≤ d.length ∧ wrap (i + n) = i + n ∧
        y = some ((), d.drop (i + n))) ∨
      ∃ n : Nat, x = .ok n ∧ y = none ∧
        (wrap (i + n) < 0 ∨ (d.length : Int) < wrap (i + n)) := by
  match x, y, hx with
  | .error (.err e), none, _ => exact .inl ⟨e, rfl, rfl⟩
  | .ok k, y, hx =>
      rw [landed_ok] at hx
      by_cases hint : k < 0 ∨ 9223372036854775808 ≤ k
      · rw [if_pos hint] at hx
        cases y <;> exact hx.elim
      obtain ⟨n, rfl⟩ := Int.eq_ofNat_of_zero_le (show 0 ≤ k by omega)
      have hsum := sum_cases hd hi (n := n) (by omega)
      rw [if_neg hint, List.length_drop] at hx
      by_cases hpast : (n : Int) > (d.length - i : Nat)
      · rw [if_pos hpast] at hx
        match y, hx with
        | none, _ => exact .inr (.inr ⟨n, rfl, rfl, by omega⟩)
      · rw [if_neg hpast, Int.toNat_natCast] at hx
        match y, hx with
        | some (_, _), ⟨_, rfl⟩ =>
            exact .inr (.inl ⟨n, rfl, by omega, by omega, by rw [List.drop_drop]⟩)

/-- A field of a group is passed over, and the loop goes on behind it. -/
theorem matches_round {d : Bytes} (hd : Addressable d) {i : Nat} (hi : i ≤ d.length)
    {x : Outcome (UnmarshalErr E) Int} {y : Option (Unit × Bytes)}
    (hx : Matches (Behind (d.drop i)) (landed (d.drop i) x) y)
    {f : Nat → Outcome (UnmarshalErr E) Nat} {g : Parser UInt8 Unit} (hg : g [] = none)
    (hf : ∀ m, d.length ≤ m ∨ y = some ((), d.drop m) → Matches (Behind d) (f m) (g (d.drop m))) :
    Matches (Behind d)
      (x >>= fun next => if wrap (i + next) < 0 then .error (.err .errInvalidLengthMessage)
        else f (wrap (i + next)).toNat)
      (y >>= fun p => g p.2) := by
  obtain ⟨e, rfl, rfl⟩ | ⟨n, rfl, hin, hwrap, hy⟩ | ⟨n, rfl, rfl, hwrap⟩ := landed_cases hd hi hx
  · exact matches_err _ e
  · have hnext := hf (i + n) (.inr hy)
    rw [ok_bind, hwrap, if_neg (by omega), show ((i : Int) + n).toNat = i + n by omega, hy]
    exact hnext
  · rw [ok_bind]
    refine Matches.check (fun _ => rfl) fun hpos => ?_
    have hend := hf (wrap (i + n)).toNat (.inl (by omega))
    rwa [List.drop_eq_nil_of_le (by omega), hg] at hend

/-- What `skipMessage` says of a slice, and what the loop over a group says of the rest of
one.  Each level of nesting takes a byte, so there are rounds enough. -/
theorem matches_skip : ∀ n : Nat,
    (∀ (F : Nat) (d : Bytes), Addressable d → 0 < d.length → 2 * d.length ≤ n → 2 * d.length ≤ F →
      Matches (Behind d) (landed d (skipMessage n d : Outcome (UnmarshalErr E) Int))
        ((varint 64).seq (skipValue F) d)) ∧
    ∀ (F : Nat) (d : Bytes) (i : Nat), Addressable d → 2 * (d.length - i) + 1 ≤ n →
      2 * (d.length - i) + 1 ≤ F →
      Matches (Behind d) (skipGroup n d i : Outcome (UnmarshalErr E) Nat) (skipBody F (d.drop i))
  | 0 => by
      refine ⟨fun F d _ hpos hn _ => by omega, fun F d i _ hn _ => by omega⟩
  | n + 1 => by
      obtain ⟨ihmsg, ihgroup⟩ := matches_skip n
      refine ⟨fun F d hd hpos hn hF => ?_, fun F d i hd hn hF => ?_⟩
      · cases F with
        | zero => omega
        | succ F =>
          have htag := matches_readVarint (E := E) 64 d 0
          rw [List.drop_zero] at htag
          rw [skipMessage, if_neg (by omega), landed_bind]
          refine htag.bind ?_
          rintro ⟨v, j⟩ ⟨_, _⟩ - hy ⟨rfl, hj, rfl⟩
          have hlt := (local_varint 64).length_lt rfl hy
          rw [List.length_drop] at hlt
          dsimp only at hj hlt ⊢
          rw [skipValue]
          generalize wireTypeOf v = t
          rcases t with _ | _ | _ | _ | _ | _ | t
          · show Matches _ (landed d (readVarint 64 d j >>= fun v => .ok (v.2 : Int))) _
            rw [landed_bind]
            refine (matches_readVarint 64 d j).bind ?_
            rintro ⟨v', k⟩ ⟨_, _⟩ - - ⟨rfl, hk, rfl⟩
            rw [landed_of_le hd hk]
            exact ⟨hk, rfl⟩
          · exact matches_fixed (n := 8) hd hj (by decide)
          · exact matches_length hd j
          · exact matches_landed hd (ihgroup F d j hd (by omega) (by omega))
          · show Matches _ (landed d (.ok (j : Int))) (some ((), d.drop j))
            rw [landed_of_le hd hj]
            exact ⟨hj, rfl⟩
          · exact matches_fixed (n := 4) hd hj (by decide)
          · exact matches_err _ _
      · cases F with
        | zero => omega
        | succ F =>
          rw [skipGroup, skipBody]
          refine (matches_readVarint 64 d i).bind ?_
          rintro ⟨v, j⟩ ⟨_, _⟩ - hy ⟨rfl, hj, rfl⟩
          have hlt := (local_varint 64).length_lt rfl hy
          simp only [List.length_drop] at hlt
          dsimp only at hj ⊢
          by_cases hend : wireTypeOf v = 4
          · rw [if_pos hend, if_pos hend]
            exact ⟨hj, rfl⟩
          · have hlen : (d.drop i).length = d.length - i := List.length_drop
            have hsub := ihmsg F (d.drop i) (by unfold Addressable at *; omega) (by omega)
              (by omega) (by omega)
            rw [Parser.seq, hy] at hsub
            rw [if_neg hend, if_neg hend, slice_to_end (by omega)]
            refine matches_round hd (by omega) hsub (by cases F <;> rfl) fun m hm => ?_
            have hless : d.length - m ≤ d.length - j := by
              rcases hm with hm | hm
              · omega
              · have hle := (local_skipValue F v).length_le hm
                rwa [List.length_drop, List.length_drop] at hle
            exact ihgroup F d m hd (by omega) (by omega)

theorem matches_skipField {d : Bytes} (hd : Addressable d) {F : Nat} (hF : 2 * d.length ≤ F)
    {i : Nat} {v : BitVec 64} {rest : Bytes} (hy : varint 64 (d.drop i) = some (v, rest)) (m : σ) :
    Matches (At d) (skipField d i m : Outcome (UnmarshalErr E) _)
      ((skipValue F v).filterMap (fun _ => some m) rest) := by
  have hlt := (local_varint 64).length_lt rfl hy
  have hlen : (d.drop i).length = d.length - i := List.length_drop
  have hsub := (matches_skip (E := E) (2 * (d.drop i).length)).1 F (d.drop i)
    (by unfold Addressable at *; omega) (by omega) (Nat.le_refl _) (by omega)
  rw [Parser.seq, hy, Option.bind_some] at hsub
  rw [skipField, slice_to_end (by omega), ok_bind, Parser.filterMap]
  obtain ⟨e, hx, hy⟩ | ⟨n, hx, hin, hwrap, hy⟩ | ⟨n, hx, hy, hwrap⟩ :=
    landed_cases hd (by omega) hsub
  · rw [hx, hy]
    exact matches_err _ e
  · have hto : ((i : Int) + n).toNat = i + n := by omega
    rw [hx, hy, ok_bind, hwrap, if_neg (by omega), if_neg (by omega), if_neg (by omega), hto]
    exact ⟨rfl, hin, rfl⟩
  · rw [hx, hy, ok_bind, if_neg (by omega)]
    exact Matches.check (fun _ => rfl) fun _ => Matches.check (fun _ => rfl) fun _ => by omega

/-- What is done with a slice returns, for every slice. -/
def Field.Settled : Field E σ → Prop
  | .bytes _ set => ∀ b m, Addressable b → Matches Eq (set b m) (okValue (set b m))
  | _ => True

theorem length_of_delimited {bs b rest : Bytes} (h : delimited bs = some (b, rest)) :
    b.length ≤ bs.length := by
  obtain ⟨⟨v, mid⟩, hmid, htake⟩ := Option.bind_eq_some_iff.mp h
  have hle := (local_varint 64).length_le hmid
  dsimp only at htake
  split at htake
  · rw [Parser.take] at htake
    split at htake
    · obtain ⟨rfl, -⟩ := Prod.mk.inj (Option.some.inj htake)
      exact Nat.le_trans (List.length_take_le' _ _) hle
    · exact absurd htake (by simp)
  · exact absurd htake (by simp)

section

variable {name : String} {field : Int → Option (Field E σ)}

/-- One round, for fields that return. -/
theorem matches_unmarshalField (hfield : ∀ k f, field k = some f → f.Settled) {d : Bytes}
    (hd : Addressable d) {F : Nat} (hF : 2 * d.length ≤ F) (m : σ) (i : Nat) :
    Matches (At d) (unmarshalField name field d m i) (fieldStep F field m (d.drop i)) := by
  refine (matches_readVarint 64 d i).bind ?_
  rintro ⟨v, j⟩ ⟨_, _⟩ - hy ⟨rfl, hj, rfl⟩
  dsimp only at hj hy ⊢
  refine Matches.check (fun hend => by rw [if_pos (.inl hend)]) fun hend => ?_
  refine Matches.check (fun hnum => by rw [if_pos (.inr hnum)]) fun hnum => ?_
  rw [if_neg (not_or.mpr ⟨hend, hnum⟩)]
  cases hk : field (fieldNumOf v) with
  | none => exact matches_skipField hd hF hy m
  | some f =>
      have hset := hfield _ f hk
      cases f with
      | int32 fname set | bool fname set =>
          refine Matches.check (fun hw => by dsimp only [Field.parse]; rw [if_pos hw]) fun hw => ?_
          dsimp only [Field.parse]
          rw [if_neg hw]
          refine (matches_readVarint _ d j).bind ?_
          rintro ⟨n, k⟩ ⟨_, _⟩ - - ⟨rfl, hk, rfl⟩
          exact ⟨rfl, hk, rfl⟩
      | bytes fname set =>
          refine Matches.check (fun hw => by dsimp only [Field.parse]; rw [if_pos hw]) fun hw => ?_
          dsimp only [Field.parse]
          rw [if_neg hw]
          refine (matches_readDelimited hd j).bind ?_
          rintro ⟨b, k⟩ ⟨_, _⟩ - hb ⟨rfl, hk, rfl⟩
          have hlen : b.length ≤ (d.drop j).length := length_of_delimited hb
          rw [List.length_drop] at hlen
          have hadd : Addressable b := by
            unfold Addressable at *
            omega
          have hval := hset b m hadd
          dsimp only
          cases hm : set b m with
          | ok m' => exact ⟨rfl, hk, rfl⟩
          | error e =>
              rw [hm] at hval
              cases e with
              | err e => exact matches_err _ e
              | panic => exact hval.elim
              | spent => exact hval.elim

theorem matches_unmarshalLoop (hfield : ∀ k f, field k = some f → f.Settled) {d : Bytes}
    (hd : Addressable d) {F : Nat} (hF : 2 * d.length ≤ F) :
    ∀ (n : Nat) (m : σ) (i : Nat), i ≤ d.length → d.length - i ≤ n →
      Matches Eq (unmarshalLoop name field d n m i) (parseAll (fieldStep F field) m (d.drop i))
  | 0, m, i, hi, hn => by
      rw [unmarshalLoop, if_neg (by omega), if_neg (by omega), List.drop_eq_nil_of_le (by omega)]
      exact rfl
  | n + 1, m, i, hi, hn => by
      rw [unmarshalLoop]
      by_cases hlt : i < d.length
      · have hne : d.drop i ≠ [] := by
          intro hnil
          have := List.drop_eq_nil_iff.mp hnil
          omega
        rw [if_pos hlt, parseAll_step (steps_fieldStep F field) hne]
        refine (matches_unmarshalField hfield hd hF m i).bind ?_
        rintro ⟨m', j⟩ ⟨_, _⟩ - hy ⟨rfl, hj, rfl⟩
        have hless := ((steps_fieldStep F field).local_step m).length_lt rfl hy
        rw [List.length_drop, List.length_drop] at hless
        dsimp only at hj hless
        exact matches_unmarshalLoop hfield hd hF n m' j hj (by omega)
      · rw [if_neg hlt, if_neg (by omega), List.drop_eq_nil_of_le (by omega)]
        exact rfl

/-- **`Unmarshal` returns**, with the value that its fields give one after the other, or
with an error if one of them is malformed. -/
theorem matches_unmarshal (hfield : ∀ k f, field k = some f → f.Settled) {d : Bytes}
    (hd : Addressable d) {F : Nat} (hF : 2 * d.length ≤ F) (m : σ) :
    Matches Eq (unmarshal name field m d) (parseAll (fieldStep F field) m d) :=
  matches_unmarshalLoop hfield hd hF d.length m 0 (Nat.zero_le _) (by omega)

theorem unmarshal_ok_iff (hfield : ∀ k f, field k = some f → f.Settled) {d : Bytes}
    (hd : Addressable d) {F : Nat} (hF : 2 * d.length ≤ F) {m m' : σ} :
    unmarshal name field m d = .ok m' ↔ parseAll (fieldStep F field) m d = some m' :=
  matches_eq_iff (matches_unmarshal hfield hd hF m) m'

end

/-! ## The five types -/

theorem settled_ok {name : String} (f : Bytes → σ → σ) :
    (Field.bytes name fun b m => .ok (f b m) : Field E σ).Settled := fun _ _ _ => rfl

/-- A field whose bytes are read by a function that returns. -/
theorem settled_of_matches {A : Type} {name : String}
    {f : Bytes → σ → Outcome (UnmarshalErr E) A} {g : Bytes → σ → Option A}
    (h : ∀ b m, Addressable b → Matches Eq (f b m) (g b m)) (set : A → σ → σ) :
    (Field.bytes name fun b m => do
      let a ← f b m
      return set a m : Field E σ).Settled := by
  intro b m hb
  dsimp only
  rcases (h b m hb).returns with ⟨a, ha⟩ | ⟨e, he⟩
  · rw [ha]
    exact rfl
  · rw [he]
    exact matches_err _ e

namespace PB

variable {cast : Bytes → Except E Cid}

theorem matches_cid (b : Bytes) :
    Matches Eq (Cid.unmarshal cast b) (okValue (Cid.unmarshal cast b)) := by
  rw [Cid.unmarshal]
  cases cast b with
  | ok c => exact rfl
  | error e => exact matches_err _ _

theorem Entry.settled (k : Int) (f : Field E PB.Entry) (h : Entry.field cast k = some f) :
    f.Settled := by
  unfold Entry.field at h
  split at h <;> cases h
  · exact settled_of_matches (fun b _ _ => matches_cid b) _
  · exact trivial
  · exact trivial
  · exact trivial
  · exact trivial
  · exact settled_ok _

theorem Wantlist.settled (k : Int) (f : Field E PB.Wantlist) (h : Wantlist.field cast k = some f) :
    f.Settled := by
  unfold Wantlist.field at h
  split at h <;> cases h
  · exact settled_of_matches (fun b _ hb => matches_unmarshal Entry.settled hb (Nat.le_refl _) _) _
  · exact trivial

theorem Block.settled (k : Int) (f : Field E PB.Block) (h : Block.field k = some f) :
    f.Settled := by
  unfold Block.field at h
  split at h <;> cases h
  · exact settled_ok _
  · exact settled_ok _
  · exact settled_ok _

theorem BlockPresence.settled (k : Int) (f : Field E PB.BlockPresence)
    (h : BlockPresence.field cast k = some f) : f.Settled := by
  unfold BlockPresence.field at h
  split at h <;> cases h
  · exact settled_of_matches (fun b _ _ => matches_cid b) _
  · exact trivial
  · exact settled_ok _

theorem Message.settled (k : Int) (f : Field E PB.Message) (h : Message.field cast k = some f) :
    f.Settled := by
  unfold Message.field at h
  split at h <;> cases h
  · exact settled_of_matches
      (fun b m hb => matches_unmarshal Wantlist.settled hb (Nat.le_refl _) m.wantlist) _
  · exact settled_ok _
  · exact settled_of_matches (fun b _ hb => matches_unmarshal Block.settled hb (Nat.le_refl _) _) _
  · exact settled_of_matches
      (fun b _ hb => matches_unmarshal BlockPresence.settled hb (Nat.le_refl _) _) _
  · exact trivial

end PB

end BitswapAuth
