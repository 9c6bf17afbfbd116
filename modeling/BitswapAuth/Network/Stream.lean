/-
# `BitswapAuth.Network.Stream` — messages on a stream

A message goes out as its length and its bytes, in a buffer from a pool that has been
used before; the stream's protocol decides which of the two formats it has.  The other
side reads frame after frame until the stream ends or a frame is bad, and hands each
message on as it comes.

What arrives is stated for a stream that may break off anywhere (`stream_delivers`): the
messages that are there as a whole, in their order, each as its format gives it, and
nothing of the one that is cut.  The messages are such as survive the format (`Sendable`) and fit
the reader's maximum (`SentAs`); one that does not may end the stream with an error.

The reader of frames is a library; what is asked of it is that it takes a frame from the
head of the stream, and that it fails on a part of one.
-/
import BitswapAuth.Message.Codec
import BitswapAuth.Message.OldFormat

namespace BitswapAuth

open Lib

variable {E : Type}

/-! ## Sending -/

/-- The length of a message, then the message. -/
def PB.Message.putFrame (m : PB.Message) : Writer E UInt8 Unit := do
  encodeVarintMessage (UInt64.ofNat m.size)
  within m.marshalTo

/-- `write`, with the buffers of `pool.Get`: the bytes it hands to the stream. -/
def PB.Message.write (m : PB.Message) (pool : Nat → Bytes) : Outcome E Bytes := do
  let out ← Writer.fill m.putFrame (pool (m.size + 10))
  slice out.1 0 out.2

/-- The protocols of a stream. -/
inductive Protocol where
  | bitswapNoVers
  | bitswapOneZero
  | bitswapOneOne
  | bitswap
  | other (id : String)

/-- `impl.SupportsHave`. -/
def Protocol.supportsHave : Protocol → Bool
  | .bitswapOneOne | .bitswapOneZero | .bitswapNoVers => false
  | _ => true

/-- `impl.msgToStream`: the format goes by the protocol. -/
def msgToStream (lib : CidLib) (proto : Protocol) (m : Message) (o : Message.WireOrders)
    (pool : Nat → Bytes) : Outcome String Bytes :=
  match proto with
  | .bitswapOneOne | .bitswap => (m.toProtoV1 lib o).write pool
  | .bitswapOneZero | .bitswapNoVers => (m.toProtoV0 o).write pool
  | .other id => .error (.err s!"unrecognized protocol on remote: {id}")

/-! ## Receiving -/

/-- The library's reader of frames.  `none` is `io.EOF`. -/
structure MsgReader where
  Err : Type
  /-- `ReadMsg`: a message, and what is left of the stream. -/
  readMsg : Bytes → Except (Option Err) (Bytes × Bytes)

/-- The errors of `FromMsgReader`. -/
inductive StreamErr (reader : MsgReader) (lib : CidLib) (E : Type) where
  | eof
  | reader (e : reader.Err)
  | unmarshal (e : UnmarshalErr E)
  | proto (e : FromProtoErr lib.Err)

section

variable (reader : MsgReader) (lib : CidLib) (cast : Bytes → Except E Cid)

/-- `FromMsgReader`. -/
def fromMsgReader (s : Bytes) : Outcome (StreamErr reader lib E) (Message × Bytes) :=
  match reader.readMsg s with
  | .error none => .error (.err .eof)
  | .error (some e) => .error (.err (.reader e))
  | .ok (msg, rest) =>
      match PB.Message.zero.unmarshal cast msg with
      | .error (.err e) => .error (.err (.unmarshal e))
      | .error .panic => .error .panic
      | .error .spent => .error .spent
      | .ok pbm =>
          match Message.newMessageFromProto lib pbm with
          | .error e => .error (.err (.proto e))
          | .ok m => .ok (m, rest)

/-- `impl.handleNewStream`: the calls of `ReceiveMessage`, in order, and the error that is
given to `StreamError`, if any. -/
def handleNewStream : (rounds : Nat) → (s : Bytes) →
    Outcome (StreamErr reader lib E) (List Message × Option (StreamErr reader lib E))
  | 0, _ => .error .spent
  | n + 1, s =>
      match fromMsgReader reader lib cast s with
      | .error (.err .eof) => .ok ([], none)
      | .error (.err e) => .ok ([], some e)
      | .error f => .error f
      | .ok (m, rest) => do
          let later ← handleNewStream n rest
          return (m :: later.1, later.2)

end

/-! ## One message -/

/-- The bytes that `write` sends are those of the message, whatever was in the buffer. -/
theorem PB.Message.write_eq {m : PB.Message} (h : m.size < 9223372036854775808)
    {pool : Nat → Bytes} (hpool : ∀ n, (pool n).length = n) :
    (m.write pool : Outcome E Bytes) = .ok (Varint.encode m.wire.length ++ m.wire) := by
  have hlen : (Varint.encode m.size).length ≤ 10 := Varint.length_encode_le (by omega) (by decide)
  have hwrites : Writes (m.putFrame : Writer E UInt8 Unit) (Varint.encode m.size ++ m.wire) :=
    writes_bind (writes_encodeVarintMessage (by omega))
      (writes_within fun d hd => (Message.writes_put (by omega)).fill hd)
  have hfill := hwrites.fill (d := pool (m.size + 10))
    (by rw [hpool, List.length_append, length_wire]; omega)
  rw [write, hfill, ok_bind, slice_of_le (Nat.zero_le _) (by simp), List.take_left,
    List.drop_zero, length_wire]

/-- The format of a protocol. -/
def formatOf (lib : CidLib) (proto : Protocol) (m : Message) (o : Message.WireOrders) :
    Option PB.Message :=
  match proto with
  | .bitswapOneOne | .bitswap => some (m.toProtoV1 lib o)
  | .bitswapOneZero | .bitswapNoVers => some (m.toProtoV0 o)
  | .other _ => none

/-- What a message becomes on the other side. -/
def Arrives (lib : CidLib) (proto : Protocol) (m m' : Message) : Prop :=
  match proto with
  | .bitswapOneOne | .bitswap => m'.Same m
  | .bitswapOneZero | .bitswapNoVers => Message.OldImage lib m m'
  | .other _ => False

/-- The message survives the format: its auth strings are hexadecimal in lower case and of even
length, its blocks hash to their CIDs, and `cid.Cast` accepts its CIDs. -/
structure Sendable (lib : CidLib) (cast : Bytes → Except E Cid) (m : Message) : Prop where
  onWire : Message.OnWire LowerHex lib.Rebuilds m
  cast : ∀ w ∈ m.names, cast w.cid.str = .ok w.cid

/-- The bytes are a frame that was sent for the message, in some order of its tables and with
some buffer. -/
def SentAs (lib : CidLib) (proto : Protocol) (max : Nat) (m : Message) (b : Bytes) : Prop :=
  ∃ (o : Message.WireOrders) (pool : Nat → Bytes) (pbm : PB.Message),
    formatOf lib proto m o = some pbm ∧ pbm.size ≤ max ∧ (∀ n, (pool n).length = n) ∧
      msgToStream lib proto m o pool = .ok b

/-- What is asked of the reader of frames, for messages up to a size. -/
structure MsgReader.Reads (reader : MsgReader) (max : Nat) : Prop where
  eof : reader.readMsg [] = .error none
  frame : ∀ msg rest, msg.length ≤ max →
    reader.readMsg (Varint.encode msg.length ++ msg ++ rest) = .ok (msg, rest)
  cut : ∀ msg n, msg.length ≤ max → n < (Varint.encode msg.length ++ msg).length →
    ∃ e, reader.readMsg ((Varint.encode msg.length ++ msg).take n) = .error e

section

variable {reader : MsgReader} {lib : CidLib} {cast : Bytes → Except E Cid} {proto : Protocol}
  {max : Nat} {m : Message} {b : Bytes}

theorem msgToStream_eq {o : Message.WireOrders} {pool : Nat → Bytes} {pbm : PB.Message}
    (h : formatOf lib proto m o = some pbm) :
    msgToStream lib proto m o pool = pbm.write pool := by
  cases proto <;> cases h <;> rfl

/-- A message in the format of a protocol is read back from it. -/
theorem exists_arrives (h : Sendable lib cast m) {o : Message.WireOrders} {pbm : PB.Message}
    (hf : formatOf lib proto m o = some pbm) :
    pbm.Castable cast ∧ ∃ m', Message.newMessageFromProto lib pbm = .ok m' ∧
      Arrives lib proto m m' := by
  have hentries : ∀ e ∈ (m.wantlistEntries o.entries).map Message.Entry.toPB,
      cast e.block.str = .ok e.block := by
    intro e he
    obtain ⟨e', he', rfl⟩ := List.mem_map.mp he
    have hmem := GoMap.mem_of_lookup (Message.mem_wantlistEntries.mp he')
    exact h.cast _ (Message.mem_names.mpr (.inl hmem))
  have hpresences : ∀ e ∈ (o.presences.range m.blockPresences.pairs).map Message.presenceToPB,
      cast e.cid.str = .ok e.cid := by
    intro e he
    obtain ⟨e', he', rfl⟩ := List.mem_map.mp he
    have hmem := GoMap.mem_of_lookup (GoMap.mem_pairs.mp (RangeOrder.mem_range.mp he'))
    exact h.cast _ (Message.mem_names.mpr (.inr (.inr hmem)))
  have hV1 : (m.toProtoV1 lib o).Castable cast ∧ ∃ m',
      Message.newMessageFromProto lib (m.toProtoV1 lib o) = .ok m' ∧ m'.Same m :=
    ⟨⟨hentries, hpresences⟩, Message.same_of_onWire h.onWire o⟩
  have hV0 : (m.toProtoV0 o).Castable cast ∧ ∃ m',
      Message.newMessageFromProto lib (m.toProtoV0 o) = .ok m' ∧ Message.OldImage lib m m' :=
    ⟨⟨hentries, fun e he => absurd he (List.not_mem_nil)⟩,
      Message.exists_oldImage h.onWire.data
        (fun w hw => ⟨h.onWire.entries w hw, h.onWire.auths w (Message.mem_names.mpr (.inl hw))⟩) o⟩
  cases proto <;> cases hf
  · exact hV0
  · exact hV0
  · exact hV1
  · exact hV1

/-- A frame that was sent is read as a message, and nothing of what comes behind it. -/
theorem SentAs.read (hreader : reader.Reads max) (hmax : max + 8 < 9223372036854775808)
    (h : Sendable lib cast m) (hb : SentAs lib proto max m b) :
    ∃ m', Arrives lib proto m m' ∧
      (∀ rest, fromMsgReader reader lib cast (b ++ rest) = .ok (m', rest)) ∧
      ∀ n, n < b.length → ∃ e, fromMsgReader reader lib cast (b.take n) = .error (.err e) := by
  obtain ⟨o, pool, pbm, hf, hsize, hpool, hb⟩ := hb
  obtain ⟨hcast, m', hm', harrives⟩ := exists_arrives h hf
  rw [msgToStream_eq hf, PB.Message.write_eq (by omega) hpool] at hb
  obtain rfl := Except.ok.inj hb
  have hlen : pbm.wire.length ≤ max := by rwa [pbm.length_wire]
  have hread : PB.Message.zero.unmarshal cast pbm.wire = .ok pbm :=
    PB.Message.unmarshal_wire hcast (by omega)
  refine ⟨m', harrives, fun rest => ?_, fun n hn => ?_⟩
  · rw [fromMsgReader, hreader.frame _ _ hlen]
    simp only [hread, hm']
  · obtain ⟨e, he⟩ := hreader.cut _ n hlen hn
    rw [fromMsgReader, he]
    cases e with
    | none => exact ⟨_, rfl⟩
    | some e => exact ⟨_, rfl⟩

/-! ## A stream of them -/

theorem handleNewStream_ok {n : Nat} {s rest : Bytes} {got : List Message}
    {err : Option (StreamErr reader lib E)} (h : fromMsgReader reader lib cast s = .ok (m, rest))
    (hrest : handleNewStream reader lib cast n rest = .ok (got, err)) :
    handleNewStream reader lib cast (n + 1) s = .ok (m :: got, err) := by
  rw [handleNewStream, h]
  show (handleNewStream reader lib cast n rest >>= _) = _
  rw [hrest]
  rfl

theorem handleNewStream_err {n : Nat} {s : Bytes} {e : StreamErr reader lib E}
    (h : fromMsgReader reader lib cast s = .error (.err e)) :
    ∃ err, handleNewStream reader lib cast (n + 1) s = .ok ([], err) := by
  rw [handleNewStream, h]
  cases e <;> exact ⟨_, rfl⟩

theorem handleNewStream_nil (hreader : reader.Reads max) (n : Nat) :
    handleNewStream reader lib cast (n + 1) [] = .ok ([], none) := by
  rw [handleNewStream, fromMsgReader, hreader.eof]

end

/-- **What a stream delivers.**  Of the messages sent on a stream of which `n` bytes arrive, each of
them one that survives the format and is no longer than the reader takes, the receiver is handed
those whose frames are complete, in their order and each as its format gives it, and nothing else;
if all of the stream arrives, these are all of them and no error is reported. -/
theorem stream_delivers (reader : MsgReader) (lib : CidLib) (cast : Bytes → Except E Cid)
    (max : Nat) (hreader : reader.Reads max) (hmax : max + 8 < 9223372036854775808)
    (proto : Protocol) (ms : List Message) (frames : List Bytes)
    (hms : ∀ m ∈ ms, Sendable lib cast m) (hsent : List.Forall₂ (SentAs lib proto max) ms frames)
    (n rounds : Nat) (hrounds : ms.length < rounds) :
    ∃ (k : Nat) (got : List Message) (err : Option (StreamErr reader lib E)),
      handleNewStream reader lib cast rounds (frames.flatten.take n) = .ok (got, err) ∧
      List.Forall₂ (Arrives lib proto) (ms.take k) got ∧
      (frames.take k).flatten.length ≤ n ∧
      (k < ms.length → n < (frames.take (k + 1)).flatten.length) ∧
      (frames.flatten.length ≤ n → k = ms.length ∧ err = none) := by
  induction hsent generalizing n rounds with
  | nil =>
      obtain ⟨r, rfl⟩ := Nat.exists_eq_add_of_lt hrounds
      refine ⟨0, [], none, ?_, .nil, Nat.zero_le _, fun h => absurd h (by simp), fun _ => ?_⟩
      · rw [List.flatten_nil, List.take_nil]
        exact handleNewStream_nil hreader _
      · exact ⟨rfl, rfl⟩
  | @cons m b ms frames hb hsent ih =>
      obtain ⟨hm, hms⟩ := List.forall_mem_cons.mp hms
      obtain ⟨m', harr, hread, hcut⟩ := hb.read hreader hmax hm
      obtain ⟨r, rfl⟩ : ∃ r, rounds = r + 1 := ⟨rounds - 1, by omega⟩
      rw [List.length_cons] at hrounds
      rw [List.flatten_cons, List.length_append]
      rcases Nat.lt_or_ge n b.length with hn | hn
      · -- the first frame is cut: nothing is delivered
        obtain ⟨e, he⟩ := hcut n hn
        obtain ⟨err, herr⟩ := handleNewStream_err (n := r) he
        rw [List.take_append_of_le_length (Nat.le_of_lt hn)]
        exact ⟨0, [], err, herr, .nil, Nat.zero_le _, fun _ => by simpa using hn, fun h => by omega⟩
      · obtain ⟨k, got, err, hgot, hall, hle, hlt, hend⟩ := ih hms (n - b.length) r (by omega)
        have htake : (b ++ frames.flatten).take n = b ++ frames.flatten.take (n - b.length) := by
          rw [List.take_append, List.take_of_length_le hn]
        rw [htake]
        refine ⟨k + 1, m' :: got, err, handleNewStream_ok (hread _) hgot, .cons harr hall,
          ?_, ?_, ?_⟩
        · rw [List.take_succ_cons, List.flatten_cons, List.length_append]
          omega
        · intro hk
          have := hlt (by simpa using hk)
          rw [List.take_succ_cons, List.flatten_cons, List.length_append]
          omega
        · intro h
          obtain ⟨hk, herr⟩ := hend (by omega)
          exact ⟨by rw [hk, List.length_cons], herr⟩

/-- A reader that takes frames of any length. -/
def plainReader : MsgReader where
  Err := Unit
  readMsg s :=
    if s = [] then .error none
    else match delimited s with
      | some x => .ok x
      | none => .error (some ())

theorem reads_plainReader {max : Nat} (hmax : max < 9223372036854775808) :
    plainReader.Reads max := by
  have hframe : ∀ (msg rest : Bytes), msg.length ≤ max →
      delimited (Varint.encode msg.length ++ msg ++ rest) = some (msg, rest) := by
    intro msg rest hlen
    rw [List.append_assoc]
    exact delimited_bytes (by omega) rest
  refine ⟨rfl, fun msg rest hlen => ?_, fun msg n hlen hn => ?_⟩
  · have hne : Varint.encode msg.length ++ msg ++ rest ≠ [] := by
      simp [Varint.encode_ne_nil]
    simp only [plainReader, if_neg hne, hframe msg rest hlen]
  · simp only [plainReader]
    split
    · exact ⟨_, rfl⟩
    · cases hpart : delimited ((Varint.encode msg.length ++ msg).take n) with
      | none => exact ⟨_, rfl⟩
      | some x =>
          -- the whole frame would leave what was cut off
          have hwhole := local_delimited.append hpart ((Varint.encode msg.length ++ msg).drop n)
          have hmsg := hframe msg [] hlen
          rw [List.take_append_drop, ← List.append_nil (_ ++ msg), hmsg] at hwhole
          have hnil := (Prod.mk.inj (Option.some.inj hwhole)).2
          have hdrop := (List.append_eq_nil_iff.mp hnil.symm).2
          rw [List.append_nil, List.drop_eq_nil_iff] at hdrop
          omega

/-- A wantlist with one entry, sent twice on a stream that breaks off in the second frame. -/
theorem stream_delivers_first :
    let m := ((Message.new true).addEntry ⟨⟨[1, 85, 7]⟩, [97, 98]⟩ 5 .wantHave true).1
    ∃ frames, List.Forall₂ (SentAs Message.plainLib .bitswap 4194304) [m, m] frames ∧
      ∃ (k : Nat) (got : List Message)
        (err : Option (StreamErr plainReader Message.plainLib Unit)),
        handleNewStream plainReader Message.plainLib PB.castAny 3 (frames.flatten.take 20) =
          .ok (got, err) ∧
        List.Forall₂ (Arrives Message.plainLib .bitswap) ([m, m].take k) got ∧
        (frames.take k).flatten.length ≤ 20 ∧
        (k < 2 → 20 < (frames.take (k + 1)).flatten.length) ∧
        (frames.flatten.length ≤ 20 → k = 2 ∧ err = none) := by
  intro m
  have hsend : Sendable Message.plainLib PB.castAny m :=
    ⟨(Message.onWire_new true).addEntry' rfl (by decide) _ _ _ _, fun w _ => PB.castAny_str w.cid⟩
  have hpool : ∀ n, (List.replicate n (0 : UInt8)).length = n := fun n => List.length_replicate
  have hsize : (m.toProtoV1 Message.plainLib .stored).size ≤ 4194304 := by decide
  have hf : formatOf Message.plainLib .bitswap m .stored = some (m.toProtoV1 _ .stored) := rfl
  obtain ⟨frame, hsent⟩ : ∃ frame, SentAs Message.plainLib .bitswap 4194304 m frame :=
    ⟨_, .stored, fun n => List.replicate n 0, m.toProtoV1 Message.plainLib .stored, hf, hsize,
      hpool, (msgToStream_eq hf).trans (PB.Message.write_eq (by omega) hpool)⟩
  refine ⟨[frame, frame], .cons hsent (.cons hsent .nil), ?_⟩
  exact stream_delivers plainReader Message.plainLib PB.castAny 4194304
    (reads_plainReader (by decide)) (by decide) .bitswap [m, m] _
    (by simp [hsend]) (.cons hsent (.cons hsent .nil)) 20 3 (by decide)

end BitswapAuth
